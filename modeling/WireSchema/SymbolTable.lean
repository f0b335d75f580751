import WireSchema.Error
import WireSchema.Journal

/-!
# Symbol tables

A symbol table holds the declarations of a schema in order, and beside them an index from
names to positions.  Declarations enter one by one, and each must be well formed and bear
a new name.  Positions in the table are the identities of declarations; names are looked up
in the index, so a declaration may refer to a later one.

A table grows as a `Register`, whose two parts are written one after the other.  A
`SymbolTable` is a register in which they agree.
-/

namespace WireSchema

/-! ### Names -/

def reservedWords : List String :=
  ["logic", "wire", "enum", "struct", "bit", "real", "input", "output", "interface",
   "typedef", "union", "type", "class"]

def cKeywords : List String :=
  ["auto", "break", "case", "char", "const", "continue", "default", "do", "double",
   "else", "enum", "extern", "float", "for", "goto", "if", "inline", "int", "long",
   "register", "restrict", "return", "short", "signed", "sizeof", "static", "struct",
   "switch", "typedef", "union", "unsigned", "void", "volatile", "while", "_Alignas",
   "_Alignof", "_Atomic", "_Bool", "_Complex", "_Generic", "_Imaginary", "_Noreturn",
   "_Static_assert", "_Thread_local"]

/-- The first rule for all names that a name breaks. -/
def brokenRule? (name : String) : Option NameRule :=
  if !isIdentifier name then some .identifier
  else if reservedWords.contains name then some .reservedWord
  else if cKeywords.contains name then some .cKeyword
  else none

def hasEnding (endings : List String) (name : String) : Bool :=
  endings.any fun ending => ending.toList.isSuffixOf name.toList

def hasDoubleUnderscore : List Char → Bool
  | '_' :: '_' :: _ => true
  | _ :: rest => hasDoubleUnderscore rest
  | [] => false

/-- The endings that names of a kind may not have, and the rule that says so. -/
def Kind.forbiddenEndings : Kind → Option (List String × NameRule)
  | .parameter => some (["_E", "_T"], .parameterEnding)
  | .typedef => some (["_e"], .typedefEnding)
  | .enum => none
  | .struct => none

def nameFault? (kind : Kind) (name : String) : Option NameRule :=
  match brokenRule? name with
  | some rule => some rule
  | none =>
    match kind.forbiddenEndings with
    | some (endings, rule) => if hasEnding endings name then some rule else none
    | none => none

/-! ### Members -/

/-- The names of the members of a declaration that has members, the endings they may not
    have, and the rule that says so. -/
def Decl.members? : Decl → Option (List String × List String × NameRule)
  | .enum e => some (e.values.map (·.name), ["_E", "_T"], .enumeratorEnding)
  | .struct s => some (s.fields.map (·.name), ["_e", "_t"], .fieldEnding)
  | .parameter _ => none
  | .typedef _ => none

def memberRule? (endings : List String) (endingRule : NameRule) (member : String) :
    Option NameRule :=
  match brokenRule? member with
  | some rule => some rule
  | none =>
    if hasDoubleUnderscore member.toList then some .doubleUnderscore
    else if hasEnding endings member then some endingRule
    else none

/-- The first fault among the members, after those in `seen`. -/
def memberFaultFrom? (owner : String) (endings : List String) (endingRule : NameRule)
    (seen : List String) : List String → Option Error
  | [] => none
  | member :: rest =>
    match memberRule? endings endingRule member with
    | some rule => some (.invalidName (qualified owner member) rule)
    | none =>
      if seen.contains member then some (.duplicate (qualified owner member))
      else memberFaultFrom? owner endings endingRule (member :: seen) rest

/-- The first fault among the members of a declaration; there must be at least one. -/
def Decl.memberFault? (d : Decl) : Option Error :=
  match d.members? with
  | none => none
  | some ([], _, _) => some (.emptyDeclaration d.name)
  | some (members, endings, rule) => memberFaultFrom? d.name endings rule [] members

/-! ### Indexes -/

structure NameIndex where
  entries : List (String × Nat) := []
  deriving DecidableEq, Repr

namespace NameIndex

def find? (index : NameIndex) (name : String) : Option Nat := index.entries.lookup name

def contains (index : NameIndex) (name : String) : Bool := (index.find? name).isSome

def insert (index : NameIndex) (name : String) (position : Nat) : NameIndex where
  entries := (name, position) :: index.entries.filter fun entry => entry.1 != name

def ofDecls (decls : List Decl) : NameIndex :=
  decls.zipIdx.foldl (fun index entry => index.insert entry.1.name entry.2) {}

theorem lookup_filter_ne {name other : String} (hother : other ≠ name)
    (entries : List (String × Nat)) :
    (entries.filter fun entry => entry.1 != name).lookup other = entries.lookup other := by
  induction entries with
  | nil => rfl
  | cons entry entries ih =>
    by_cases hentry : entry.1 = name
    · have hskip : (other == entry.1) = false := by simpa [hentry] using hother
      rw [List.filter_cons_of_neg (by simpa using hentry), ih, List.lookup_cons, hskip]
    · rw [List.filter_cons_of_pos (by simpa using hentry), List.lookup_cons,
          List.lookup_cons, ih]

theorem find?_insert (index : NameIndex) (name other : String) (position : Nat) :
    (index.insert name position).find? other =
      if other = name then some position else index.find? other := by
  unfold find? insert
  rw [List.lookup_cons]
  by_cases hother : other = name
  · simp [hother]
  · rw [if_neg hother, beq_false_of_ne hother]
    exact lookup_filter_ne hother index.entries

theorem ofDecls_concat (decls : List Decl) (d : Decl) :
    ofDecls (decls ++ [d]) = (ofDecls decls).insert d.name decls.length := by
  simp [ofDecls, List.zipIdx_append]

/-- What is found in the index of a list bears the name. -/
theorem exists_of_find? {decls : List Decl} {name : String} {position : Nat}
    (h : (ofDecls decls).find? name = some position) :
    ∃ hlt : position < decls.length, (decls.get ⟨position, hlt⟩).name = name := by
  rcases decls.eq_nil_or_concat with rfl | ⟨first, last, rfl⟩
  · cases h
  · rw [List.concat_eq_append, ofDecls_concat, find?_insert] at h
    split at h
    · rename_i hname
      cases h
      exact ⟨by simp, by simp [hname]⟩
    · obtain ⟨hlt, hname⟩ := exists_of_find? h
      exact ⟨by rw [List.length_concat]; omega,
        by simpa [List.getElem_append_left hlt] using hname⟩
termination_by decls.length

end NameIndex

/-! ### Registers -/

/-- A table as it grows: declarations in order, and an index of their names. -/
structure Register where
  decls : List Decl := []
  index : NameIndex := {}
  deriving DecidableEq, Repr

namespace Register

/-- Add a declaration, which gets the next position, unless it is not well formed or its
    name is taken. -/
def declare (r : Register) (d : Decl) : Except Error Nat × Register :=
  match nameFault? d.kind d.name with
  | some rule => (.error (.invalidName d.name rule), r)
  | none =>
    if r.index.contains d.name then (.error (.duplicate d.name), r)
    else
      match d.memberFault? with
      | some e => (.error e, r)
      | none =>
        let position := r.decls.length
        let r := { r with index := r.index.insert d.name position }
        let r := { r with decls := r.decls ++ [d] }
        (.ok position, r)

def refusal? (r : Register) (d : Decl) : Option Error :=
  match nameFault? d.kind d.name with
  | some rule => some (.invalidName d.name rule)
  | none => if r.index.contains d.name then some (.duplicate d.name) else d.memberFault?

theorem declare_of_refusal?_eq_some {r : Register} {d : Decl} {e : Error}
    (h : r.refusal? d = some e) : r.declare d = (.error e, r) := by
  unfold refusal? at h
  unfold declare
  cases hname : nameFault? d.kind d.name with
  | some rule => simpa [hname] using h
  | none =>
    cases htaken : r.index.contains d.name with
    | true => simpa [hname, htaken] using h
    | false =>
      have hmembers : d.memberFault? = some e := by simpa [hname, htaken] using h
      simp [hmembers]

theorem declare_of_refusal?_eq_none {r : Register} {d : Decl} (h : r.refusal? d = none) :
    r.declare d = (.ok r.decls.length,
        ⟨r.decls ++ [d], r.index.insert d.name r.decls.length⟩) := by
  unfold refusal? at h
  unfold declare
  cases hname : nameFault? d.kind d.name with
  | some rule => simp [hname] at h
  | none =>
    cases htaken : r.index.contains d.name with
    | true => simp [hname, htaken] at h
    | false =>
      have hmembers : d.memberFault? = none := by simpa [hname, htaken] using h
      simp [hmembers]

def Indexed (r : Register) : Prop := r.index = .ofDecls r.decls

theorem Indexed.declare {r : Register} (h : r.Indexed) (d : Decl) :
    (r.declare d).2.Indexed := by
  cases hrefusal : r.refusal? d with
  | some e =>
    rw [declare_of_refusal?_eq_some hrefusal]
    exact h
  | none =>
    rw [declare_of_refusal?_eq_none hrefusal]
    unfold Indexed at h ⊢
    rw [NameIndex.ofDecls_concat, h]

end Register

/-! ### Tables -/

/-- The declarations of a schema in the order in which they were declared, with the index of
    their names. -/
structure SymbolTable extends Register where
  index := .ofDecls decls
  indexed : index = .ofDecls decls := by exact rfl
  deriving DecidableEq, Repr

namespace SymbolTable

@[ext] theorem ext {s t : SymbolTable} (h : s.decls = t.decls) : s = t := by
  obtain ⟨⟨decls, index⟩, hs⟩ := s
  obtain ⟨⟨decls', index'⟩, ht⟩ := t
  cases h
  cases hs.trans ht.symm
  rfl

abbrev empty : SymbolTable := {}

def size (t : SymbolTable) : Nat := t.decls.length

abbrev Id (t : SymbolTable) : Type := Fin t.decls.length

def get (t : SymbolTable) (id : t.Id) : Decl := t.decls.get id

theorem lt_length_of_find? (t : SymbolTable) (name : String) :
    ∀ position ∈ t.index.find? name, position < t.decls.length := by
  intro position h
  rw [t.indexed] at h
  exact (NameIndex.exists_of_find? h).1

def lookup (t : SymbolTable) (name : String) : Option t.Id :=
  (t.index.find? name).pmap Fin.mk (t.lt_length_of_find? name)

def ids (t : SymbolTable) : List t.Id := List.finRange t.decls.length

/-- The number of a declaration, counted from one. -/
def number {t : SymbolTable} (id : t.Id) : Nat := id.val + 1

def resolveRef (t : SymbolTable) (owner name : String) : Except Error t.Id :=
  match t.lookup name with
  | some id => .ok id
  | none => .error (.unknownReference owner name)

def listing (t : SymbolTable) : String :=
  String.join (t.ids.map fun id =>
    "\t#" ++ toString (number id) ++ " => " ++ (t.get id).name ++ " | " ++
      (t.get id).kind.title ++ "\n")

def declare (t : SymbolTable) (d : Decl) : Except Error Nat × SymbolTable :=
  let called := t.toRegister.declare d
  (called.1,
    { toRegister := called.2,
      indexed := Register.Indexed.declare (r := t.toRegister) t.indexed d })

/-- The table after calls for all the declarations, and the errors of those it refuses. -/
def declareAll (t : SymbolTable) : List Decl → SymbolTable × List Error
  | [] => (t, [])
  | d :: rest =>
    let called := t.declare d
    let (final, errors) := called.2.declareAll rest
    match called.1 with
    | .ok _ => (final, errors)
    | .error e => (final, e :: errors)

end SymbolTable

/-! ### Generated names -/

/-- The names that the header declares for a declaration, each with the schema name it
    comes from. -/
def Decl.generatedNames (d : Decl) : List (String × String) :=
  (widthName d.name, d.name) ::
    match d with
    | .parameter p =>
      [(constantName p.name, p.name), (countWidthName p.name, p.name),
          (widthOneName p.name, p.name)]
    | .enum e =>
      (constantName e.name, e.name) :: e.values.map fun v =>
        (v.name, qualified e.name v.name)
    | .typedef t => [(t.name, t.name)]
    | .struct s => [(s.name, s.name)]

/-- An error for every name that is generated again, after the names in `known`. -/
def clashesFrom (known : List (String × String)) : List (String × String) → List Error
  | [] => []
  | (name, owner) :: rest =>
    match known.lookup name with
    | some first => .generatedTwice name first owner :: clashesFrom known rest
    | none => clashesFrom (known ++ [(name, owner)]) rest

namespace SymbolTable

def clashes (t : SymbolTable) : List Error :=
  clashesFrom [] (t.decls.flatMap Decl.generatedNames)

/-- The table of a list of declarations, or every error in them. -/
def ofDecls (decls : List Decl) : Except (List Error) SymbolTable :=
  let (t, rejected) := declareAll empty decls
  let errors := rejected ++ t.clashes
  if errors.isEmpty then .ok t else .error errors

def register (decls : List Decl) : Journal (List Error) SymbolTable :=
  ⟨[.log .debug .symbolTable ("Initialize symbol table for " ++ toString decls.length ++
        " declarations")], ofDecls decls⟩

end SymbolTable

end WireSchema
