import Mathlib.Data.Finset.Card
import Mathlib.Data.Finset.Dedup
import Mathlib.Data.List.Infix
import WireSchema.Proofs.Identifiers

/-!
# The errors of registration

Registration goes on after an error, and a declaration that it refuses leaves its name
free.  So what a declaration is checked against depends on the verdicts on all
declarations before it.  These can be told in advance: a declaration is accepted exactly
if it is proper by itself and the first proper one of its name (`accepted`).

The errors are then two lists of the same kind: one entry for every element that does not
go with those before it.
-/

namespace WireSchema

/-! ### Proper declarations -/

/-- A name that a schema can declare: an identifier that neither the schema language nor C
    keeps for itself. -/
structure Declarable (name : String) : Prop where
  identifier : isIdentifier name = true
  notReserved : name ∉ reservedWords
  notKeyword : name ∉ cKeywords

def Kind.nameEndings : Kind → List String
  | .parameter => ["_E", "_T"]
  | .typedef => ["_e"]
  | .enum => []
  | .struct => []

def Kind.memberEndings : Kind → List String
  | .enum => ["_E", "_T"]
  | .struct => ["_e", "_t"]
  | .parameter => []
  | .typedef => []

/-- A declaration that is in order by itself, whatever else is declared. -/
structure Decl.Proper (d : Decl) : Prop where
  name : Declarable d.name
  nameEnding : ∀ ending ∈ d.kind.nameEndings, ¬ ending.toList <:+ d.name.toList
  members : ∀ member ∈ d.memberNames, Declarable member
  memberEnding : ∀ member ∈ d.memberNames, ∀ ending ∈ d.kind.memberEndings,
    ¬ ending.toList <:+ member.toList
  memberUnderscores : ∀ member ∈ d.memberNames, ¬ ['_', '_'] <:+: member.toList
  distinct : d.memberNames.Nodup
  nonempty : d.kind = .enum ∨ d.kind = .struct → d.memberNames ≠ []

theorem declarable_iff {name : String} : Declarable name ↔ brokenRule? name = none := by
  rw [brokenRule?_eq_none_iff]
  exact ⟨fun h => ⟨h.identifier, h.notReserved, h.notKeyword⟩, fun h => ⟨h.1, h.2.1, h.2.2⟩⟩

theorem hasEnding_eq_false_iff {endings : List String} {name : String} :
    hasEnding endings name = false ↔
      ∀ ending ∈ endings, ¬ ending.toList <:+ name.toList := by
  unfold hasEnding
  rw [List.any_eq_false]
  simp only [List.isSuffixOf_iff_suffix]

theorem hasDoubleUnderscore_iff {cs : List Char} :
    hasDoubleUnderscore cs = true ↔ ['_', '_'] <:+: cs := by
  fun_induction hasDoubleUnderscore cs with
  | case1 rest =>
    simp only [true_iff]
    exact ⟨[], rest, rfl⟩
  | case2 c rest hfirst ih =>
    rw [ih, List.infix_cons_iff]
    constructor
    · exact Or.inr
    · rintro (⟨rest', hprefix⟩ | hrest)
      · simp only [List.cons_append, List.nil_append, List.cons.injEq] at hprefix
        exact (hfirst rest' hprefix.1.symm hprefix.2.symm).elim
      · exact hrest
  | case3 => simp

/-- The name of a declaration is accepted if it can be declared and has none of the
    endings. -/
theorem nameFault?_eq_none_iff {kind : Kind} {name : String} :
    nameFault? kind name = none ↔
      Declarable name ∧ ∀ ending ∈ kind.nameEndings, ¬ ending.toList <:+ name.toList := by
  rw [declarable_iff, ← hasEnding_eq_false_iff]
  unfold nameFault?
  cases brokenRule? name with
  | some rule => simp
  | none =>
    cases kind with
    | parameter =>
      cases h : hasEnding ["_E", "_T"] name <;>
        simp [Kind.forbiddenEndings, Kind.nameEndings, h]
    | typedef =>
      cases h : hasEnding ["_e"] name <;>
        simp [Kind.forbiddenEndings, Kind.nameEndings, h]
    | enum => simp [Kind.forbiddenEndings, Kind.nameEndings, hasEnding]
    | struct => simp [Kind.forbiddenEndings, Kind.nameEndings, hasEnding]

theorem memberFault?_eq_none_iff {d : Decl} {members endings : List String}
    {rule : NameRule} (h : d.members? = some (members, endings, rule)) :
    d.memberFault? = none ↔
      members ≠ [] ∧ (∀ member ∈ members, memberRule? endings rule member = none) ∧
        members.Nodup := by
  unfold Decl.memberFault?
  rw [h]
  cases members with
  | nil => simp
  | cons first rest => simp [memberFaultFrom?_eq_none_iff]

namespace Decl

theorem members?_cases (d : Decl) :
    (d.members? = none ∧ d.memberNames = [] ∧ ¬ (d.kind = .enum ∨ d.kind = .struct)) ∨
      ∃ rule, d.members? = some (d.memberNames, d.kind.memberEndings, rule) ∧
        (d.kind = .enum ∨ d.kind = .struct) := by
  cases d with
  | parameter p => exact .inl ⟨rfl, rfl, by simp [kind]⟩
  | typedef d => exact .inl ⟨rfl, rfl, by simp [kind]⟩
  | enum e => exact .inr ⟨.enumeratorEnding, rfl, .inl rfl⟩
  | struct s => exact .inr ⟨.fieldEnding, rfl, .inr rfl⟩

theorem memberRule?_iff {endings : List String} {rule : NameRule} {member : String} :
    memberRule? endings rule member = none ↔
      Declarable member ∧ (¬ ['_', '_'] <:+: member.toList) ∧
        ∀ ending ∈ endings, ¬ ending.toList <:+ member.toList := by
  rw [memberRule?_eq_none_iff, declarable_iff, ← hasEnding_eq_false_iff,
      ← hasDoubleUnderscore_iff, Bool.not_eq_true]

/-- **The checks of registration on a declaration by itself are those of a proper
    declaration.** -/
theorem wellFormed_iff_proper {d : Decl} : d.WellFormed ↔ d.Proper := by
  constructor
  · rintro ⟨hname, hmembers⟩
    obtain ⟨hdeclarable, hending⟩ := nameFault?_eq_none_iff.mp hname
    rcases d.members?_cases with ⟨_, hnil, hkind⟩ | ⟨rule, hsome, _⟩
    · refine ⟨hdeclarable, hending, ?_, ?_, ?_, ?_, fun h => absurd h hkind⟩ <;> simp [hnil]
    · obtain ⟨hne, hrules, hnodup⟩ := (memberFault?_eq_none_iff hsome).mp hmembers
      have hrule := fun member hmember => memberRule?_iff.mp (hrules member hmember)
      exact ⟨hdeclarable, hending, fun m hm => (hrule m hm).1, fun m hm => (hrule m hm).2.2,
        fun m hm => (hrule m hm).2.1, hnodup, fun _ => hne⟩
  · intro h
    refine ⟨nameFault?_eq_none_iff.mpr ⟨h.name, h.nameEnding⟩, ?_⟩
    rcases d.members?_cases with ⟨hnone, _, _⟩ | ⟨rule, hsome, hkind⟩
    · rw [memberFault?, hnone]
    · refine (memberFault?_eq_none_iff hsome).mpr ⟨h.nonempty hkind, ?_, h.distinct⟩
      intro member hmember
      exact memberRule?_iff.mpr ⟨h.members member hmember,
          h.memberUnderscores member hmember, h.memberEnding member hmember⟩

instance (d : Decl) : Decidable d.WellFormed :=
  decidable_of_iff (nameFault? d.kind d.name = none ∧ d.memberFault? = none)
    ⟨fun h => ⟨h.1, h.2⟩, fun h => ⟨h.name, h.members⟩⟩

instance (d : Decl) : Decidable d.Proper :=
  decidable_of_iff d.WellFormed wellFormed_iff_proper

end Decl

/-! ### What stands before -/

/-- The elements of a list, each with the list of those before it. -/
def withBefore {α : Type} (l : List α) : List (List α × α) := l.inits.zip l

theorem withBefore_concat {α : Type} (l : List α) (a : α) :
    withBefore (l ++ [a]) = withBefore l ++ [(l, a)] := by
  induction l with
  | nil => rfl
  | cons b l ih =>
    unfold withBefore at ih ⊢
    rw [List.cons_append, List.inits_cons, List.zip_cons_cons, List.zip_map_left, ih,
        List.inits_cons, List.zip_cons_cons, List.zip_map_left, List.map_append]
    rfl

/-- A declaration is accepted after those before it: it is proper, and no proper one
    before it has its name. -/
def Acceptable (place : List Decl × Decl) : Prop :=
  place.2.Proper ∧ ∀ b ∈ place.1, b.Proper → b.name ≠ place.2.name

instance : DecidablePred Acceptable := fun place =>
  inferInstanceAs (Decidable (place.2.Proper ∧ ∀ b ∈ place.1, b.Proper →
        b.name ≠ place.2.name))

def accepted (decls : List Decl) : List Decl :=
  ((withBefore decls).filter fun place => decide (Acceptable place)).map Prod.snd

def rejection? (place : List Decl × Decl) : Option Error :=
  match (SymbolTable.declare { decls := accepted place.1 } place.2).1 with
  | .ok _ => none
  | .error e => some e

/-- The error of a generated name that stands before already; it names the owners of the
    first and of this one. -/
def repetition? (place : List (String × String) × (String × String)) : Option Error :=
  (place.1.lookup place.2.1).map fun first => .generatedTwice place.2.1 first place.2.2

def generatedNames (decls : List Decl) : List (String × String) :=
  decls.flatMap Decl.generatedNames

def rejections (decls : List Decl) : List Error := (withBefore decls).filterMap rejection?

def repetitions (names : List (String × String)) : List Error :=
  (withBefore names).filterMap repetition?

theorem rejections_concat (decls : List Decl) (d : Decl) :
    rejections (decls ++ [d]) = rejections decls ++ (rejection? (decls, d)).toList := by
  unfold rejections
  rw [withBefore_concat, List.filterMap_append]
  cases h : rejection? (decls, d) <;> simp [h]

theorem repetitions_concat (names : List (String × String)) (entry : String × String) :
    repetitions (names ++ [entry]) = repetitions names ++
      (repetition? (names, entry)).toList := by
  unfold repetitions
  rw [withBefore_concat, List.filterMap_append]
  cases h : repetition? (names, entry) <;> simp [h]

/-! ### Accepted declarations -/

theorem accepted_concat {decls : List Decl} {d : Decl} (h : Acceptable (decls, d)) :
    accepted (decls ++ [d]) = accepted decls ++ [d] := by
  unfold accepted
  rw [withBefore_concat, List.filter_append, List.map_append,
      List.filter_cons_of_pos (by simpa using h)]
  rfl

theorem accepted_concat_of_not {decls : List Decl} {d : Decl}
    (h : ¬ Acceptable (decls, d)) : accepted (decls ++ [d]) = accepted decls := by
  unfold accepted
  rw [withBefore_concat, List.filter_append, List.filter_cons_of_neg (by simpa using h),
      List.filter_nil, List.append_nil]

/-- The names that are taken are those of proper declarations, whether they were accepted
    or not. -/
theorem mem_names_accepted {decls : List Decl} {name : String} :
    name ∈ (accepted decls).map Decl.name ↔ ∃ b ∈ decls, b.Proper ∧ b.name = name := by
  induction decls using List.reverseRecOn with
  | nil => simp [accepted, withBefore]
  | append_singleton decls d ih =>
    simp only [List.mem_append, List.mem_singleton, or_and_right, exists_or,
        exists_eq_left, ← ih]
    by_cases hd : Acceptable (decls, d)
    · rw [accepted_concat hd, List.map_append, List.mem_append, List.map_singleton,
          List.mem_singleton]
      simp only [hd.1, true_and, eq_comm]
    · rw [accepted_concat_of_not hd]
      refine ⟨Or.inl, ?_⟩
      rintro (hold | ⟨hproper, rfl⟩)
      · exact hold
      · -- the name is taken by the proper declaration that stands in the way
        rw [ih]
        by_contra hfree
        exact hd ⟨hproper, fun b hb hbproper hname => hfree ⟨b, hb, hbproper, hname⟩⟩

/-- A declaration is refused because of the accepted ones before it, and not because of
    the refused ones. -/
theorem rejection?_eq (before : List Decl) (d : Decl) :
    rejection? (before, d) =
      Register.refusal? (SymbolTable.toRegister { decls := accepted before }) d := by
  unfold rejection?
  cases hd : Register.refusal? (SymbolTable.toRegister { decls := accepted before }) d with
  | some e => rw [SymbolTable.declare_of_refusal?_eq_some hd]
  | none => rw [SymbolTable.declare_of_refusal?_eq_none hd]

/-- **A declaration is refused exactly if it is not acceptable.** -/
theorem rejection?_eq_none_iff {place : List Decl × Decl} :
    rejection? place = none ↔ Acceptable place := by
  obtain ⟨before, d⟩ := place
  have hfree : (∀ b ∈ before, b.Proper → b.name ≠ d.name) ↔
      SymbolTable.lookup { decls := accepted before } d.name = none := by
    rw [SymbolTable.lookup_eq_none_iff_notMem, mem_names_accepted]
    simp only [not_exists, not_and, ne_eq]
  unfold Acceptable
  rw [rejection?_eq, SymbolTable.refusal?_eq_none_iff, hfree, ← Decl.wellFormed_iff_proper]
  constructor
  · rintro ⟨hname, hlookup, hmembers⟩
    exact ⟨⟨hname, hmembers⟩, hlookup⟩
  · rintro ⟨⟨hname, hmembers⟩, hlookup⟩
    exact ⟨hname, hlookup, hmembers⟩

namespace SymbolTable

/-- Registration goes on after the declarations in `before`. -/
theorem declareAll_accepted (before rest : List Decl) :
    (declareAll { decls := accepted before } rest).1 =
      { decls := accepted (before ++ rest) } ∧
      rejections before ++ (declareAll { decls := accepted before } rest).2 =
        rejections (before ++ rest) := by
  induction rest generalizing before with
  | nil => simp [declareAll]
  | cons d rest ih =>
    have hnext := ih (before ++ [d])
    rw [List.append_assoc, List.singleton_append, rejections_concat] at hnext
    cases hrejection : rejection? (before, d) with
    | none =>
      have htable : push { decls := accepted before } d =
          { decls := accepted (before ++ [d]) } := by
        rw [accepted_concat (rejection?_eq_none_iff.mp hrejection)]
        rfl
      rw [declareAll_cons_of_refusal?_eq_none (rejection?_eq before d ▸ hrejection), htable]
      simpa [hrejection] using hnext
    | some e =>
      have hnot : ¬ Acceptable (before, d) := by simp [← rejection?_eq_none_iff, hrejection]
      rw [accepted_concat_of_not hnot] at hnext
      rw [declareAll_cons_of_refusal?_eq_some (rejection?_eq before d ▸ hrejection)]
      simpa [hrejection] using hnext

end SymbolTable

/-! ### Repeated names -/

/-- The names in `known` are those in `before`, each with its first owner. -/
theorem clashesFrom_before {known before : List (String × String)}
    (h : ∀ name, known.lookup name = before.lookup name) (rest : List (String × String)) :
    repetitions before ++ clashesFrom known rest = repetitions (before ++ rest) := by
  induction rest generalizing known before with
  | nil => simp [clashesFrom]
  | cons entry rest ih =>
    obtain ⟨name, owner⟩ := entry
    have hrepetition : repetition? (before, (name, owner)) =
        (known.lookup name).map fun first => .generatedTwice name first owner := by
      rw [h name]
      rfl
    unfold clashesFrom
    cases hknown : known.lookup name with
    | some first =>
      have hsame : ∀ other, known.lookup other =
          (before ++ [(name, owner)]).lookup other := by
        intro other
        rw [List.lookup_append, ← h other]
        by_cases hother : other = name
        · rw [hother, hknown, Option.some_or]
        · simp [hother]
      have hnext := ih hsame
      rw [repetitions_concat, List.append_assoc, List.append_assoc, List.singleton_append]
        at hnext
      simpa [hrepetition, hknown] using hnext
    | none =>
      have hsame : ∀ other, (known ++ [(name, owner)]).lookup other =
          (before ++ [(name, owner)]).lookup other := by
        intro other
        rw [List.lookup_append, List.lookup_append, h other]
      have hnext := ih hsame
      rw [repetitions_concat, List.append_assoc, List.append_assoc, List.singleton_append]
        at hnext
      simpa [hrepetition, hknown] using hnext

/-! ### Counting -/

theorem length_rejections (decls : List Decl) :
    (rejections decls).length + (accepted decls).length = decls.length := by
  induction decls using List.reverseRecOn with
  | nil => rfl
  | append_singleton decls d ih =>
    rw [rejections_concat, List.length_append, List.length_append, List.length_singleton]
    cases hd : rejection? (decls, d) with
    | none =>
      rw [accepted_concat (rejection?_eq_none_iff.mp hd), List.length_append,
          List.length_singleton, Option.toList_none, List.length_nil]
      omega
    | some e =>
      have hnot : ¬ Acceptable (decls, d) := by simp [← rejection?_eq_none_iff, hd]
      rw [accepted_concat_of_not hnot, Option.toList_some, List.length_singleton]
      omega

/-- There is an error for every generated name but the first of its kind. -/
theorem length_repetitions (names : List (String × String)) :
    (repetitions names).length + (names.map Prod.fst).toFinset.card = names.length := by
  induction names using List.reverseRecOn with
  | nil => rfl
  | append_singleton names entry ih =>
    obtain ⟨name, owner⟩ := entry
    have hset : ((names ++ [(name, owner)]).map Prod.fst).toFinset =
        insert name (names.map Prod.fst).toFinset := by
      ext other
      simp
    have hmem : names.lookup name = none ↔ name ∉ (names.map Prod.fst).toFinset := by
      rw [List.mem_toFinset, lookup_eq_none_iff_notMem_keys]
    rw [repetitions_concat, List.length_append, List.length_append,
        List.length_singleton, hset]
    cases hlookup : names.lookup name with
    | none =>
      rw [Finset.card_insert_of_notMem (hmem.mp hlookup)]
      simp [repetition?, hlookup]
      omega
    | some first =>
      have hold : name ∈ (names.map Prod.fst).toFinset := by
        by_contra hnew
        rw [hmem.mpr hnew] at hlookup
        cases hlookup
      rw [Finset.insert_eq_of_mem hold]
      simp [repetition?, hlookup]
      omega

/-! ### Registration -/

namespace SymbolTable

theorem declareAll_eq (decls : List Decl) :
    declareAll empty decls = ({ decls := accepted decls }, rejections decls) := by
  obtain ⟨htable, herrors⟩ := declareAll_accepted [] decls
  exact Prod.ext htable herrors

theorem clashes_eq (t : SymbolTable) :
    t.clashes = repetitions (generatedNames t.decls) := by
  have hnothing : ∀ name, List.lookup name ([] : List (String × String)) =
      List.lookup name [] := by
    intro name
    rfl
  exact clashesFrom_before hnothing (generatedNames t.decls)

theorem errors_of_ofDecls {decls : List Decl} {errors : List Error}
    (h : ofDecls decls = .error errors) :
    errors = rejections decls ++ repetitions (generatedNames (accepted decls)) := by
  unfold ofDecls at h
  rw [declareAll_eq] at h
  simp only [clashes_eq] at h
  split at h
  · cases h
  · cases h
    rfl

theorem registrable_iff {decls : List Decl} :
    Registrable decls ↔
      (∀ d ∈ decls, d.Proper) ∧ (decls.map Decl.name).Nodup ∧
        ((generatedNames decls).map Prod.fst).Nodup := by
  have hnames : (generatedNames decls).map Prod.fst = decls.flatMap Decl.identifiers :=
    List.map_flatMap
  simp only [hnames, ← Decl.wellFormed_iff_proper]
  exact ⟨fun h => ⟨h.wellFormed, h.nodup_names, h.nodup_identifiers⟩, fun h =>
      ⟨h.1, h.2.1, h.2.2⟩⟩

/-- **Registration accepts exactly the declarations that are proper and do not clash, and
    accounts for all others.**  When it fails, there is one error for every declaration
    that is refused, and then one for every generated name that an accepted declaration
    repeats. -/
theorem registration_accounted (decls : List Decl) :
    (∀ t, ofDecls decls = .ok t ↔
      t.decls = decls ∧ (∀ d ∈ decls, d.Proper) ∧ (decls.map Decl.name).Nodup ∧
        ((generatedNames decls).map Prod.fst).Nodup) ∧
    ∀ errors, ofDecls decls = .error errors →
      errors = rejections decls ++ repetitions (generatedNames (accepted decls)) ∧
        errors.length = (decls.length - (accepted decls).length) +
          ((generatedNames (accepted decls)).length -
            ((generatedNames (accepted decls)).map Prod.fst).toFinset.card) := by
  constructor
  · intro t
    rw [ofDecls_eq_ok_iff, registrable_iff]
  · intro errors h
    have herrors := errors_of_ofDecls h
    refine ⟨herrors, ?_⟩
    have hrejections := length_rejections decls
    have hrepetitions := length_repetitions (generatedNames (accepted decls))
    rw [herrors, List.length_append]
    omega

/-- A reserved word, a parameter and a struct of one name, and an enumerator that is
    called like a constant of the parameter.  The struct is refused because the parameter
    is there; the reserved word takes no name. -/
def mixedDecls : List Decl :=
  [.parameter { name := "wire", value := .literal 1 },
   .parameter { name := "DEPTH", value := .literal 4 },
   .struct { name := "DEPTH", fields := [{ name := "slot", type := .logic (.literal 1) }] },
   .enum { name := "mode_e", width := .literal 2,
           values := [{ name := "DEPTH_WIDTH" }, { name := "IDLE" }] }]

/-- The three errors stand in the order of the declarations, those of generated names at
    the end. -/
theorem mixedDecls_accounted :
    ofDecls mixedDecls = .error [.invalidName "wire" .reservedWord, .duplicate "DEPTH",
      .generatedTwice "DEPTH_WIDTH" "DEPTH" "mode_e.DEPTH_WIDTH"] ∧
    rejections mixedDecls ++ repetitions (generatedNames (accepted mixedDecls)) =
      [.invalidName "wire" .reservedWord, .duplicate "DEPTH",
        .generatedTwice "DEPTH_WIDTH" "DEPTH" "mode_e.DEPTH_WIDTH"] := by
  have herror : ofDecls mixedDecls =
      .error [.invalidName "wire" .reservedWord, .duplicate "DEPTH",
        .generatedTwice "DEPTH_WIDTH" "DEPTH" "mode_e.DEPTH_WIDTH"] := by
    rfl
  exact ⟨herror, ((registration_accounted mixedDecls).2 _ herror).1.symm⟩

end SymbolTable

end WireSchema
