import WireSchema.Proofs.Lists
import WireSchema.Proofs.Literals

/-!
# The sections of a schema

A document is read entry by entry, and a fault does not keep what follows from being read.
So every entry has outcomes of its own, in order: the declarations and the errors that it
gives (`Outcomes`).  A section of records has one outcome for each record, unless a record
cannot be read; then the section as a whole has one.

The schema has the declarations of all entries, and if there is an error anywhere, the
errors of all entries are reported.  Only where there is none it matters whether a section
of declarations is there.
-/

namespace WireSchema

open WireSchema.Yaml (Value)

namespace Record

variable {α : Type} {read : Value → Read α}

theorem nullable_noList {value : Value} (hnull : value ≠ .null)
    (hlist : ∀ items, value ≠ .sequence items) :
    nullable (list read) value = .error (.wrongType (Found.ofValue value) .sequence) := by
  cases value with
  | null => exact absurd rfl hnull
  | sequence items => exact absurd rfl (hlist items)
  | _ => rfl

theorem nullable_list {items : List Value} :
    nullable (list read) (.sequence items) = (items.mapM read).map some := rfl

end Record

/-! ### Written declarations -/

inductive Record.Source.Gives (owner : String) : Record.Source → Except Error Expr → Prop
  | number (n : Int) : Gives owner (.number n) (.ok (.literal n))
  | expression {s : String} {e : Expr} (h : Expr.parse s = some e) :
      Gives owner (.text s) (.ok e)
  | noExpression {s : String} (h : Expr.parse s = none) :
      Gives owner (.text s) (.error (.schema (.notExpression owner s)))

inductive Record.FieldRecord.TypeGives (owner : String) (r : Record.FieldRecord) :
    Except Error FieldType → Prop
  | bits {width : Record.Source} {x : Except Error Expr}
      (hlogic : Schema.isLogic r.type = true) (hwidth : r.width = some width)
      (hx : width.Gives owner x) : TypeGives owner r (x.map .logic)
  | bit (hlogic : Schema.isLogic r.type = true) (hwidth : r.width = none) :
      TypeGives owner r (.ok (.logic (.literal 1)))
  | named (hnamed : Schema.isLogic r.type = false) (hwidth : r.width = none) :
      TypeGives owner r (.ok (.named r.type))
  | namedWithWidth {width : Record.Source} (hnamed : Schema.isLogic r.type = false)
      (hwidth : r.width = some width) :
      TypeGives owner r (.error (.invalidField owner r.name))

def Record.FieldRecord.Gives (owner : String) (r : Record.FieldRecord)
    (outcome : Except Error Field) : Prop :=
  ∃ x, r.TypeGives owner x ∧ outcome = x.map fun type =>
    { name := r.name, type := type, docs := r.docs }

namespace Kind

def sectionName : Kind → String
  | .parameter => "localparams"
  | .enum => "enums"
  | .typedef => "typedefs"
  | .struct => "structs"

abbrev Written : Kind → Type
  | .parameter => Record.ParameterRecord
  | .enum => Record.EnumRecord
  | .typedef => Record.TypedefRecord
  | .struct => Record.StructRecord

abbrev Slots : Kind → Type
  | .parameter => Record.ParameterSlots
  | .enum => Record.EnumSlots
  | .typedef => Record.TypedefSlots
  | .struct => Record.StructSlots

def shape : (kind : Kind) → Record.Shape kind.Slots kind.Written
  | .parameter => Record.parameter
  | .enum => Record.enum
  | .typedef => Record.typedef
  | .struct => Record.struct

def lower : (kind : Kind) → kind.Written → Except Error Decl
  | .parameter => Schema.lowerParameter
  | .enum => Schema.lowerEnum
  | .typedef => Schema.lowerTypedef
  | .struct => Schema.lowerStruct

/-- What a written declaration gives: a declaration, or one error.  The error of a struct
    is that of its first field that has one. -/
def Gives : (kind : Kind) → kind.Written → Except Error Decl → Prop
  | .parameter, r, outcome => ∃ x, r.value.Gives r.name x ∧
      outcome = x.map fun e => .parameter { name := r.name, value := e, docs := r.docs }
  | .enum, r, outcome =>
    ∃ x, r.width.Gives r.name x ∧ outcome = x.map fun e =>
      .enum { name := r.name, width := e, values := r.values, docs := r.docs }
  | .typedef, r, outcome =>
    ∃ x, r.width.Gives r.name x ∧ outcome = x.map fun e =>
      .typedef { name := r.name,
                 base := if Schema.isLogic r.base then none else some r.base,
                 width := e, docs := r.docs }
  | .struct, r, .ok d =>
    ∃ fields, List.Forall₂ (fun f field => f.Gives r.name (.ok field)) r.fields fields ∧
      d = .struct { name := r.name, fields := fields, docs := r.docs }
  | .struct, r, .error e => ∃ good bad rest, r.fields = good ++ bad :: rest ∧
      (∀ f ∈ good, ∃ field, f.Gives r.name (.ok field)) ∧ bad.Gives r.name (.error e)

end Kind

/-! ### Lowering -/

namespace Schema

theorem lowerExpr_eq_iff {owner : String} {src : Record.Source} {x : Except Error Expr} :
    lowerExpr owner src = x ↔ src.Gives owner x := by
  constructor
  · rintro rfl
    unfold lowerExpr
    split
    · exact .number _
    · split
      · exact .expression ‹_›
      · exact .noExpression ‹_›
  · rintro (n | hparse | hparse)
    · rfl
    · simp only [lowerExpr, hparse]
    · simp only [lowerExpr, hparse]

theorem exists_typeGives (owner : String) (r : Record.FieldRecord) :
    ∃ x, r.TypeGives owner x := by
  cases hlogic : isLogic r.type with
  | true =>
    cases hwidth : r.width with
    | some width => exact ⟨_, .bits hlogic hwidth (lowerExpr_eq_iff.mp rfl)⟩
    | none => exact ⟨_, .bit hlogic hwidth⟩
  | false =>
    cases hwidth : r.width with
    | some width => exact ⟨_, .namedWithWidth hlogic hwidth⟩
    | none => exact ⟨_, .named hlogic hwidth⟩

theorem lowerField_of_typeGives {owner : String} {r : Record.FieldRecord}
    {x : Except Error FieldType} (h : r.TypeGives owner x) :
    lowerField owner r = x.map fun type =>
      { name := r.name, type := type, docs := r.docs } := by
  unfold lowerField
  cases h with
  | bits hlogic hwidth hx =>
    simp only [hlogic, hwidth, lowerExpr_eq_iff.mpr hx]
    cases ‹Except Error Expr› <;> rfl
  | bit hlogic hwidth =>
    simp only [hlogic, hwidth]
    rfl
  | named hnamed hwidth =>
    simp only [hnamed, hwidth]
    rfl
  | namedWithWidth hnamed hwidth =>
    simp only [hnamed, hwidth]
    rfl

theorem lowerField_eq_iff {owner : String} {r : Record.FieldRecord}
    {outcome : Except Error Field} :
    lowerField owner r = outcome ↔ r.Gives owner outcome := by
  constructor
  · rintro rfl
    obtain ⟨x, hx⟩ := exists_typeGives owner r
    exact ⟨x, hx, lowerField_of_typeGives hx⟩
  · rintro ⟨x, hx, rfl⟩
    exact lowerField_of_typeGives hx

/-- A declaration with one expression. -/
theorem lower_expr_eq_iff {owner : String} {src : Record.Source} {make : Expr → Decl}
    {outcome : Except Error Decl} :
    (do return make (← lowerExpr owner src)) = outcome ↔ ∃ x, src.Gives owner x ∧
      outcome = x.map make := by
  have hmap : (do return make (← lowerExpr owner src)) =
      (lowerExpr owner src).map make := by
    cases lowerExpr owner src <;> rfl
  rw [hmap, eq_comm]
  simp only [← lowerExpr_eq_iff, exists_eq_left']

theorem lowerStruct_eq_ok_iff {r : Record.StructRecord} {d : Decl} :
    lowerStruct r = .ok d ↔ Kind.Gives .struct r (.ok d) := by
  unfold lowerStruct Kind.Gives
  simp only [except_bind_eq_ok_iff, mapM_eq_ok_iff, lowerField_eq_iff]
  refine exists_congr fun fields => and_congr_right fun _ => ?_
  constructor
  · rintro ⟨⟩
    rfl
  · rintro rfl
    rfl

theorem lowerStruct_eq_error_iff {r : Record.StructRecord} {e : Error} :
    lowerStruct r = .error e ↔ Kind.Gives .struct r (.error e) := by
  unfold Kind.Gives
  simp only [← lowerField_eq_iff, ← mapM_eq_error_iff]
  unfold lowerStruct
  cases r.fields.mapM (lowerField r.name) <;> simp [bind, Except.bind, pure, Except.pure]

theorem lower_eq_iff {kind : Kind} {r : kind.Written} {outcome : Except Error Decl} :
    kind.lower r = outcome ↔ kind.Gives r outcome := by
  cases kind with
  | parameter => exact lower_expr_eq_iff
  | enum => exact lower_expr_eq_iff
  | typedef => exact lower_expr_eq_iff
  | struct =>
    cases outcome with
    | ok d => exact lowerStruct_eq_ok_iff
    | error e => exact lowerStruct_eq_error_iff

/-! ### Entries -/

def docSections : List String := ["doc_summary", "doc_verbose"]

def docText? : Value → Option (Option String)
  | .null => some none
  | .text s => some (some s)
  | _ => none

/-- An entry without a fault, and the declarations that it holds. -/
inductive Sound : Value × Value → List Decl → Prop
  | doc {name : String} {value : Value} {doc : Option String} (hname : name ∈ docSections)
      (hdoc : docText? value = some doc) : Sound (.text name, value) []
  | empty (kind : Kind) : Sound (.text kind.sectionName, .null) []
  | records (kind : Kind) {items : List Value} {records : List kind.Written}
      {decls : List Decl}
      (hread : List.Forall₂ (fun item r => kind.shape.read item = .ok r) items records)
      (hdecls : List.Forall₂ (fun r d => kind.Gives r (.ok d)) records decls) :
      Sound (.text kind.sectionName, .sequence items) decls

/-- What an entry gives, in order: declarations and errors. -/
inductive Outcomes : Value × Value → List (Except Error Decl) → Prop
  | noName {key value : Value} (hkey : ∀ name, key ≠ .text name) :
      Outcomes (key, value) [.error (.schema .sectionName)]
  | unknown {name : String} {value : Value} (hdoc : name ∉ docSections)
      (hkind : ∀ kind : Kind, name ≠ kind.sectionName) :
      Outcomes (.text name, value) [.error (.schema (.unknownSection name))]
  | doc {name : String} {value : Value} {doc : Option String} (hname : name ∈ docSections)
      (hdoc : docText? value = some doc) : Outcomes (.text name, value) []
  | noText {name : String} {value : Value} (hname : name ∈ docSections)
      (hdoc : docText? value = none) :
      Outcomes (.text name, value) [.error (.schema (.docNotText name))]
  | empty (kind : Kind) : Outcomes (.text kind.sectionName, .null) []
  | noList (kind : Kind) {value : Value} (hnull : value ≠ .null)
      (hlist : ∀ items, value ≠ .sequence items) :
      Outcomes (.text kind.sectionName, value)
        [.error (.schema (.record (.wrongType (Found.ofValue value) .sequence)))]
  | unreadable (kind : Kind) {good rest : List Value} {bad : Value} {fault : RecordFault}
      (hgood : ∀ item ∈ good, ∃ r, kind.shape.read item = .ok r)
      (hbad : kind.shape.read bad = .error fault) :
      Outcomes (.text kind.sectionName, .sequence (good ++ bad :: rest))
        [.error (.schema (.record fault))]
  | records (kind : Kind) {items : List Value} {records : List kind.Written}
      {outcomes : List (Except Error Decl)}
      (hread : List.Forall₂ (fun item r => kind.shape.read item = .ok r) items records)
      (houtcomes : List.Forall₂ kind.Gives records outcomes) :
      Outcomes (.text kind.sectionName, .sequence items) outcomes

def declsIn (outcomes : List (Except Error Decl)) : List Decl :=
  outcomes.filterMap fun
    | .ok d => some d
    | .error _ => none

def errorsIn (outcomes : List (Except Error Decl)) : List Error :=
  outcomes.filterMap fun
    | .ok _ => none
    | .error e => some e

@[simp] theorem declsIn_ok_cons (d : Decl) (outcomes : List (Except Error Decl)) :
    declsIn (.ok d :: outcomes) = d :: declsIn outcomes := rfl

@[simp] theorem declsIn_error_cons (e : Error) (outcomes : List (Except Error Decl)) :
    declsIn (.error e :: outcomes) = declsIn outcomes := rfl

@[simp] theorem errorsIn_ok_cons (d : Decl) (outcomes : List (Except Error Decl)) :
    errorsIn (.ok d :: outcomes) = errorsIn outcomes := rfl

@[simp] theorem errorsIn_error_cons (e : Error) (outcomes : List (Except Error Decl)) :
    errorsIn (.error e :: outcomes) = e :: errorsIn outcomes := rfl

theorem declsIn_append (before after : List (Except Error Decl)) :
    declsIn (before ++ after) = declsIn before ++ declsIn after := List.filterMap_append

theorem errorsIn_append (before after : List (Except Error Decl)) :
    errorsIn (before ++ after) = errorsIn before ++ errorsIn after := List.filterMap_append

theorem eq_map_ok_iff {outcomes : List (Except Error Decl)} {decls : List Decl} :
    outcomes = decls.map .ok ↔ errorsIn outcomes = [] ∧ decls = declsIn outcomes := by
  induction outcomes generalizing decls with
  | nil => cases decls <;> simp [errorsIn, declsIn]
  | cons outcome outcomes ih =>
    cases outcome with
    | ok d =>
      cases decls with
      | nil => simp
      | cons d' decls =>
        rw [List.map_cons, List.cons_eq_cons, ih, Except.ok.injEq, errorsIn_ok_cons,
            declsIn_ok_cons, List.cons_eq_cons, eq_comm, and_left_comm]
    | error e => cases decls <;> simp

/-! ### Reading an entry -/

theorem lowerAll_eq {ρ : Type} (lower : ρ → Except Error Decl) (records : List ρ) :
    lowerAll lower records = (declsIn (records.map lower),
        errorsIn (records.map lower)) := by
  induction records with
  | nil => rfl
  | cons r records ih =>
    unfold lowerAll
    rw [ih, List.map_cons]
    cases lower r <;> rfl

theorem forall₂_gives_iff {kind : Kind} {records : List kind.Written}
    {outcomes : List (Except Error Decl)} :
    List.Forall₂ kind.Gives records outcomes ↔ outcomes = records.map kind.lower := by
  have hgives : kind.Gives = fun r outcome => kind.lower r = outcome := by
    funext r outcome
    exact propext lower_eq_iff.symm
  rw [hgives, eq_comm, ← List.forall₂_eq_eq_eq, List.forall₂_map_left_iff]

theorem readSection_of_ok {kind : Kind} {items : List Value} {records : List kind.Written}
    {outcomes : List (Except Error Decl)}
    (hread : List.Forall₂ (fun item r => kind.shape.read item = .ok r) items records)
    (houtcomes : List.Forall₂ kind.Gives records outcomes) :
    readSection kind.shape kind.lower (.sequence items) =
      (declsIn outcomes, errorsIn outcomes) := by
  have hlist : Record.nullable (Record.list kind.shape.read) (.sequence items) =
      .ok (some records) := by
    rw [Record.nullable_list, mapM_eq_ok_iff.mpr hread]
    rfl
  rw [forall₂_gives_iff.mp houtcomes, ← lowerAll_eq]
  simp only [readSection, hlist, Option.getD_some]

theorem readSection_of_error (kind : Kind) {value : Value} {fault : RecordFault}
    (h : Record.nullable (Record.list kind.shape.read) value = .error fault) :
    readSection kind.shape kind.lower value =
      (declsIn [.error (.schema (.record fault))],
          errorsIn [.error (.schema (.record fault))]) := by
  simp only [readSection, h]
  rfl

/-- Every entry of a document has outcomes. -/
theorem exists_outcomes (entry : Value × Value) : ∃ outcomes, Outcomes entry outcomes := by
  obtain ⟨key, value⟩ := entry
  by_cases hkey : ∃ name, key = .text name
  · obtain ⟨name, rfl⟩ := hkey
    by_cases hdoc : name ∈ docSections
    · cases htext : docText? value with
      | some doc => exact ⟨_, .doc hdoc htext⟩
      | none => exact ⟨_, .noText hdoc htext⟩
    · by_cases hkind : ∃ kind : Kind, name = kind.sectionName
      · obtain ⟨kind, rfl⟩ := hkind
        by_cases hlist : ∃ items, value = .sequence items
        · obtain ⟨items, rfl⟩ := hlist
          cases hread : items.mapM kind.shape.read with
          | ok records =>
            exact ⟨_, .records kind (mapM_eq_ok_iff.mp hread) (forall₂_gives_iff.mpr rfl)⟩
          | error fault =>
            obtain ⟨good, bad, rest, rfl, hgood, hbad⟩ := mapM_eq_error_iff.mp hread
            exact ⟨_, .unreadable kind hgood hbad⟩
        · by_cases hnull : value = .null
          · subst hnull
            exact ⟨_, .empty kind⟩
          · exact ⟨_, .noList kind hnull (not_exists.mp hlist)⟩
      · exact ⟨_, .unknown hdoc (not_exists.mp hkind)⟩
  · exact ⟨_, .noName (not_exists.mp hkey)⟩

def Declaring (entries : List (Value × Value)) : Prop :=
  ∃ (kind : Kind) (value : Value), (.text kind.sectionName, value) ∈ entries

theorem declaring_cons {entry : Value × Value} {entries : List (Value × Value)} :
    Declaring (entry :: entries) ↔ Declaring [entry] ∨ Declaring entries := by
  unfold Declaring
  simp only [List.mem_cons, List.not_mem_nil, or_false, exists_or]

theorem declaring_text {name : String} {value : Value} :
    Declaring [(.text name, value)] ↔ ∃ kind : Kind, name = kind.sectionName := by
  unfold Declaring
  simp [eq_comm]

theorem sectionName_notMem_docSections (kind : Kind) : kind.sectionName ∉ docSections := by
  cases kind <;> decide

theorem not_declaring_doc {name : String} {value : Value} (h : name ∈ docSections) :
    ¬ Declaring [(.text name, value)] := by
  rw [declaring_text]
  rintro ⟨kind, rfl⟩
  exact sectionName_notMem_docSections kind h

def docOf? (name : String) : Value × Value → Option (Option String)
  | (.text key, value) => if key = name then docText? value else none
  | _ => none

theorem docOf?_of_ne {name : String} {key value : Value} (h : key ≠ .text name) :
    docOf? name (key, value) = none := by
  cases key with
  | text key =>
    have hne : key ≠ name := fun heq => h (congrArg Value.text heq)
    simp only [docOf?, hne, if_false]
  | _ => rfl

/-- The text of the last section `name` of documentation; `otherwise` if there is none. -/
def lastDoc (name : String) (entries : List (Value × Value)) (otherwise : Option String) :
    Option String :=
  (entries.reverse.findSome? (docOf? name)).getD otherwise

theorem lastDoc_singleton (name : String) (entry : Value × Value)
    (otherwise : Option String) :
    lastDoc name [entry] otherwise = (docOf? name entry).getD otherwise := by
  unfold lastDoc
  cases h : docOf? name entry <;> simp [h]

theorem lastDoc_cons (name : String) (entry : Value × Value)
    (entries : List (Value × Value)) (otherwise : Option String) :
    lastDoc name (entry :: entries) otherwise =
      lastDoc name entries (lastDoc name [entry] otherwise) := by
  rw [lastDoc_singleton]
  unfold lastDoc
  rw [List.reverse_cons, List.findSome?_append]
  cases entries.reverse.findSome? (docOf? name) with
  | some doc => rfl
  | none => cases h : docOf? name entry <;> simp [h]

theorem readDoc_of_some (name : String) {value : Value} {doc : Option String}
    (h : docText? value = some doc) : readDoc name value = .ok doc := by
  unfold docText? at h
  split at h <;> cases h <;> rfl

theorem readDoc_of_none (name : String) {value : Value} (h : docText? value = none) :
    readDoc name value = .error (.schema (.docNotText name)) := by
  cases value with
  | null => cases h
  | text s => cases h
  | _ => rfl

namespace Progress

theorem addSection_kind (p : Progress) (kind : Kind) (value : Value) :
    p.addSection kind.sectionName value =
      p.addDecls (readSection kind.shape kind.lower value) := by
  cases kind <;> rfl

theorem addSection_unknown (p : Progress) {name : String} (value : Value)
    (hdoc : name ∉ docSections) (hkind : ∀ kind : Kind, name ≠ kind.sectionName) :
    p.addSection name value = { p with errors := p.errors ++
        [.schema (.unknownSection name)] } := by
  have hparameter : name ≠ "localparams" := hkind .parameter
  have henum : name ≠ "enums" := hkind .enum
  have htypedef : name ≠ "typedefs" := hkind .typedef
  have hstruct : name ≠ "structs" := hkind .struct
  simp only [docSections, List.mem_cons, List.not_mem_nil, or_false, not_or] at hdoc
  simp only [addSection, beq_iff_eq, hdoc.1, hdoc.2, hparameter, henum, htypedef,
      hstruct, if_false]

theorem addEntry_summary (p : Progress) {value : Value} {doc : Option String}
    (h : docText? value = some doc) :
    p.addEntry (.text "doc_summary", value) =
      { p with schema := { p.schema with docSummary := doc } } := by
  simp [addEntry, addSection, addDoc, readDoc_of_some _ h]

theorem addEntry_verbose (p : Progress) {value : Value} {doc : Option String}
    (h : docText? value = some doc) :
    p.addEntry (.text "doc_verbose", value) =
      { p with schema := { p.schema with docVerbose := doc } } := by
  simp [addEntry, addSection, addDoc, readDoc_of_some _ h]

theorem addEntry_noText (p : Progress) {name : String} {value : Value}
    (hname : name ∈ docSections) (h : docText? value = none) :
    p.addEntry (.text name, value) =
      { p with errors := p.errors ++ [.schema (.docNotText name)] } := by
  simp only [docSections, List.mem_cons, List.not_mem_nil, or_false] at hname
  rcases hname with rfl | rfl <;> simp [addEntry, addSection, addDoc, readDoc_of_none _ h]

theorem addEntry_noName (p : Progress) {key : Value} (value : Value)
    (h : ∀ name, key ≠ .text name) :
    p.addEntry (key, value) = { p with errors := p.errors ++ [.schema .sectionName] } := by
  cases key with
  | text name => exact absurd rfl (h name)
  | _ => rfl

end Progress

/-- What has been read goes from `p` to `q` by entries with these outcomes. -/
structure Adds (entries : List (Value × Value)) (outcomes : List (Except Error Decl))
    (p q : Progress) : Prop where
  decls : q.schema.decls = p.schema.decls ++ declsIn outcomes
  errors : q.errors = p.errors ++ errorsIn outcomes
  declares : q.declares = true ↔ p.declares = true ∨ Declaring entries
  summary : q.schema.docSummary = lastDoc "doc_summary" entries p.schema.docSummary
  verbose : q.schema.docVerbose = lastDoc "doc_verbose" entries p.schema.docVerbose

/-- An entry that is refused as a whole. -/
theorem adds_error {p q : Progress} {entry : Value × Value} {e : Error}
    (hq : q = { p with errors := p.errors ++ [e] }) (hdeclares : ¬ Declaring [entry])
    (hdoc : ∀ name ∈ docSections, docOf? name entry = none) :
    Adds [entry] [.error e] p q := by
  subst hq
  refine ⟨?_, rfl, ?_, ?_, ?_⟩
  · simp [declsIn]
  · simp [hdeclares]
  · rw [lastDoc_singleton, hdoc "doc_summary" (by decide), Option.getD_none]
  · rw [lastDoc_singleton, hdoc "doc_verbose" (by decide), Option.getD_none]

/-- Taking in a section of declarations adds its outcomes. -/
theorem adds_kind {p : Progress} {kind : Kind} {value : Value}
    {outcomes : List (Except Error Decl)}
    (h : readSection kind.shape kind.lower value =
      (declsIn outcomes, errorsIn outcomes)) :
    Adds [(.text kind.sectionName, value)] outcomes p
      (p.addEntry (.text kind.sectionName, value)) := by
  have hentry : p.addEntry (.text kind.sectionName, value) =
      p.addDecls (declsIn outcomes, errorsIn outcomes) := by
    rw [← h]
    exact p.addSection_kind kind value
  have hdoc : ∀ name ∈ docSections, docOf? name (.text kind.sectionName, value) = none := by
    intro name hname
    refine docOf?_of_ne ?_
    rintro ⟨⟩
    exact sectionName_notMem_docSections kind hname
  rw [hentry]
  refine ⟨rfl, rfl, ?_, ?_, ?_⟩
  · simp only [Progress.addDecls, true_iff]
    exact .inr (declaring_text.mpr ⟨kind, rfl⟩)
  · rw [lastDoc_singleton, hdoc "doc_summary" (by decide), Option.getD_none]
    rfl
  · rw [lastDoc_singleton, hdoc "doc_verbose" (by decide), Option.getD_none]
    rfl

theorem adds_doc {p : Progress} {name : String} {value : Value} {doc : Option String}
    (hname : name ∈ docSections) (hdoc : docText? value = some doc) :
    Adds [(.text name, value)] [] p (p.addEntry (.text name, value)) := by
  have hdeclares : ¬ Declaring [(.text name, value)] := not_declaring_doc hname
  simp only [docSections, List.mem_cons, List.not_mem_nil, or_false] at hname
  rcases hname with rfl | rfl
  · rw [p.addEntry_summary hdoc]
    refine ⟨?_, ?_, ?_, ?_, ?_⟩ <;>
      simp [declsIn, errorsIn, hdeclares, lastDoc_singleton, docOf?, hdoc]
  · rw [p.addEntry_verbose hdoc]
    refine ⟨?_, ?_, ?_, ?_, ?_⟩ <;>
      simp [declsIn, errorsIn, hdeclares, lastDoc_singleton, docOf?, hdoc]

/-- An entry adds its outcomes, and nothing else. -/
theorem adds_addEntry {entry : Value × Value} {outcomes : List (Except Error Decl)}
    (h : Outcomes entry outcomes) (p : Progress) :
    Adds [entry] outcomes p (p.addEntry entry) := by
  cases h with
  | noName hkey =>
    apply adds_error (p.addEntry_noName _ hkey)
    · rintro ⟨kind, value, hmem⟩
      exact hkey kind.sectionName (congrArg Prod.fst (List.mem_singleton.mp hmem)).symm
    · intro name _
      exact docOf?_of_ne (hkey name)
  | unknown hdoc hkind =>
    apply adds_error (p.addSection_unknown _ hdoc hkind)
    · rw [declaring_text]
      exact not_exists.mpr hkind
    · intro name hname
      refine docOf?_of_ne ?_
      rintro ⟨⟩
      exact hdoc hname
  | doc hname hdoc => exact adds_doc hname hdoc
  | noText hname hdoc =>
    apply adds_error (p.addEntry_noText hname hdoc) (not_declaring_doc hname)
    intro name _
    simp only [docOf?, hdoc, ite_self]
  | empty kind => exact adds_kind rfl
  | noList kind hnull hlist =>
    exact adds_kind (readSection_of_error kind (Record.nullable_noList hnull hlist))
  | unreadable kind hgood hbad =>
    refine adds_kind (readSection_of_error kind ?_)
    rw [Record.nullable_list, mapM_eq_error_iff.mpr ⟨_, _, _, rfl, hgood, hbad⟩]
    rfl
  | records kind hread houtcomes => exact adds_kind (readSection_of_ok hread houtcomes)

theorem Adds.trans {entry : Value × Value} {entries : List (Value × Value)}
    {first rest : List (Except Error Decl)} {p q r : Progress}
    (hpq : Adds [entry] first p q) (hqr : Adds entries rest q r) :
    Adds (entry :: entries) (first ++ rest) p r where
  decls := by rw [hqr.decls, hpq.decls, declsIn_append, List.append_assoc]
  errors := by rw [hqr.errors, hpq.errors, errorsIn_append, List.append_assoc]
  declares := by rw [hqr.declares, hpq.declares, or_assoc, ← declaring_cons]
  summary := by rw [hqr.summary, hpq.summary, ← lastDoc_cons]
  verbose := by rw [hqr.verbose, hpq.verbose, ← lastDoc_cons]

theorem adds_foldl {entries : List (Value × Value)}
    {parts : List (List (Except Error Decl))} (h : List.Forall₂ Outcomes entries parts)
    (p : Progress) :
    Adds entries parts.flatten p (entries.foldl Progress.addEntry p) := by
  induction h generalizing p with
  | nil => exact ⟨by simp [declsIn], by simp [errorsIn], by simp [Declaring], rfl, rfl⟩
  | cons hentry _ ih => exact (adds_addEntry hentry p).trans (ih (p.addEntry _))

/-! ### Documents -/

theorem Progress.finish_eq_ok_iff {p : Progress} {schema : Schema} :
    p.finish = .ok schema ↔ p.errors = [] ∧ p.declares = true ∧ schema = p.schema := by
  unfold finish
  split_ifs <;> grind

theorem Progress.finish_eq_error_iff {p : Progress} {errors : List Error} :
    p.finish = .error errors ↔
      errors = p.errors ∧ errors ≠ [] ∨ p.errors = [] ∧ p.declares = false ∧
        errors = [.schema .noSection] := by
  unfold finish
  split_ifs <;> grind

/-- A document is a schema if all its outcomes are declarations and some section
    declares. -/
theorem ofValue_mapping_eq_ok_iff {entries : List (Value × Value)}
    {parts : List (List (Except Error Decl))} (h : List.Forall₂ Outcomes entries parts)
    {schema : Schema} :
    (ofValue (.mapping entries)).outcome = .ok schema ↔
      parts.flatten = schema.decls.map .ok ∧ Declaring entries ∧
        schema.docSummary = lastDoc "doc_summary" entries none ∧
          schema.docVerbose = lastDoc "doc_verbose" entries none := by
  have hadds := adds_foldl h {}
  have hschema : schema = (entries.foldl Progress.addEntry {}).schema ↔
      schema.docSummary = lastDoc "doc_summary" entries none ∧
      schema.docVerbose = lastDoc "doc_verbose" entries none ∧
      schema.decls = declsIn parts.flatten := by
    rw [← hadds.summary, ← hadds.verbose, ← List.nil_append (declsIn parts.flatten),
        ← hadds.decls]
    cases schema
    exact Schema.mk.injEq .. ▸ Iff.rfl
  have herrors : (entries.foldl Progress.addEntry {}).errors = errorsIn parts.flatten :=
    hadds.errors
  have hdeclares : (entries.foldl Progress.addEntry {}).declares = true ↔
      Declaring entries := by
    simpa using hadds.declares
  change (entries.foldl Progress.addEntry {}).finish = .ok schema ↔ _
  rw [Progress.finish_eq_ok_iff, herrors, hdeclares, hschema, eq_map_ok_iff]
  tauto

theorem ofValue_mapping_eq_error_iff {entries : List (Value × Value)}
    {parts : List (List (Except Error Decl))} (h : List.Forall₂ Outcomes entries parts)
    {errors : List Error} :
    (ofValue (.mapping entries)).outcome = .error errors ↔
      errors = errorsIn parts.flatten ∧ errors ≠ [] ∨
        errorsIn parts.flatten = [] ∧ ¬ Declaring entries ∧
          errors = [.schema .noSection] := by
  have hadds := adds_foldl h {}
  change (entries.foldl Progress.addEntry {}).finish = .error errors ↔ _
  rw [Progress.finish_eq_error_iff, ← Bool.not_eq_true, hadds.errors, hadds.declares]
  simp

/-- The outcomes of an entry are all declarations exactly if it has no fault. -/
theorem outcomes_ok_iff {entry : Value × Value} {decls : List Decl} :
    Outcomes entry (decls.map .ok) ↔ Sound entry decls := by
  constructor
  · intro h
    generalize houtcomes : decls.map Except.ok = outcomes at h
    cases h with
    | doc hname hdoc =>
      cases List.map_eq_nil_iff.mp houtcomes
      exact .doc hname hdoc
    | empty kind =>
      cases List.map_eq_nil_iff.mp houtcomes
      exact .empty kind
    | records kind hread hgives =>
      subst houtcomes
      exact .records kind hread (List.forall₂_map_right_iff.mp hgives)
    | _ => cases decls <;> simp at houtcomes
  · intro h
    cases h with
    | doc hname hdoc => exact .doc hname hdoc
    | empty kind => exact .empty kind
    | records kind hread hdecls =>
      exact .records kind hread (List.forall₂_map_right_iff.mpr hdecls)

/-- Entries without an error are sound. -/
theorem exists_sound_iff {entries : List (Value × Value)} {decls : List Decl} :
    (∃ parts, List.Forall₂ Sound entries parts ∧ parts.flatten = decls) ↔
      ∃ parts, List.Forall₂ Outcomes entries parts ∧ parts.flatten = decls.map .ok := by
  constructor
  · rintro ⟨parts, hsound, rfl⟩
    refine ⟨parts.map (List.map .ok), ?_, List.map_flatten.symm⟩
    rw [List.forall₂_map_right_iff]
    exact hsound.imp fun _ _ => outcomes_ok_iff.mpr
  · rintro ⟨parts, houtcomes, hparts⟩
    induction houtcomes generalizing decls with
    | nil =>
      cases List.map_eq_nil_iff.mp hparts.symm
      exact ⟨[], .nil, rfl⟩
    | cons hentry _ ih =>
      -- the declarations of the first entry are as many as it has outcomes
      obtain ⟨first, rest, rfl, rfl, hrest⟩ := List.map_eq_append_iff.mp hparts.symm
      obtain ⟨restParts, hsound, rfl⟩ := ih hrest.symm
      exact ⟨first :: restParts, .cons (outcomes_ok_iff.mp hentry) hsound, rfl⟩

/-- **A schema has every declaration of its document, or else every failure is reported.**
    A document is a schema exactly if it is a mapping of sound entries with a section of
    declarations among them; the declarations stand in the order of the document.
    Otherwise the errors of all entries are reported in that order.  That no section
    declares anything is an error only where there is no other. -/
theorem lowering_exact (doc : Value) :
    (∀ schema, (ofValue doc).outcome = .ok schema ↔
      ∃ entries parts, doc = .mapping entries ∧ List.Forall₂ Sound entries parts ∧
        Declaring entries ∧ schema.decls = parts.flatten ∧
          schema.docSummary = lastDoc "doc_summary" entries none ∧
          schema.docVerbose = lastDoc "doc_verbose" entries none) ∧
    ∀ errors, (ofValue doc).outcome = .error errors ↔
      (doc = .null ∧ errors = [.schema .empty]) ∨
      (doc ≠ .null ∧ (∀ entries, doc ≠ .mapping entries) ∧ errors = [.schema .notMapping]) ∨
      ∃ entries parts, doc = .mapping entries ∧ List.Forall₂ Outcomes entries parts ∧
        (errors = errorsIn parts.flatten ∧ errors ≠ [] ∨
          errorsIn parts.flatten = [] ∧ ¬ Declaring entries ∧
            errors = [.schema .noSection]) := by
  cases doc with
  | mapping entries =>
    obtain ⟨parts, hparts⟩ := exists_forall₂_iff.mpr fun entry (_ : entry ∈ entries) =>
      exists_outcomes entry
    constructor
    · intro schema
      constructor
      · intro h
        obtain ⟨hdecls, hrest⟩ := (ofValue_mapping_eq_ok_iff hparts).mp h
        obtain ⟨soundParts, hsound, heq⟩ := exists_sound_iff.mpr ⟨parts, hparts, hdecls⟩
        exact ⟨entries, soundParts, rfl, hsound, hrest.1, heq.symm, hrest.2⟩
      · rintro ⟨_, soundParts, ⟨⟩, hsound, hdeclaring, hdecls, hdocs⟩
        obtain ⟨parts, hparts, heq⟩ := exists_sound_iff.mp ⟨soundParts, hsound, hdecls.symm⟩
        exact (ofValue_mapping_eq_ok_iff hparts).mpr ⟨heq, hdeclaring, hdocs⟩
    · intro errors
      constructor
      · intro h
        exact .inr (.inr ⟨entries, parts, rfl, hparts,
              (ofValue_mapping_eq_error_iff hparts).mp h⟩)
      · rintro (⟨⟨⟩, _⟩ | ⟨_, hno, _⟩ | ⟨_, parts, ⟨⟩, hparts, herrors⟩)
        · exact absurd rfl (hno entries)
        · exact (ofValue_mapping_eq_error_iff hparts).mpr herrors
  | _ =>
    simp only [ofValue, Journal.fail, Except.error.injEq]
    grind

/-- Sections with a fault in most of them.  The second struct and the second parameter
    have none. -/
def mixedEntries : List (Value × Value) :=
  [(.int 7, .null),
   (.text "structs", .sequence
      [.sequence [.text "pair_t",
         .sequence [.sequence [.text "left", .text "half_t", .int 4, .text "A half."],
           .sequence [.text "right", .text "wire", .text "4 4", .text "A half."]],
         .text "A pair."],
       .sequence [.text "one_t",
         .sequence [.sequence [.text "bit", .text "wire", .null, .text "A bit."]],
         .text "One."]]),
   (.text "doc_summary", .text "Halves."),
   (.text "localparams", .sequence
      [.mapping [(.text "name", .text "LEFT"), (.text "value", .text "4 4"),
         (.text "doc_summary", .text "Left.")],
       .mapping [(.text "name", .text "RIGHT"), (.text "value", .int 4),
         (.text "doc_summary", .text "Right.")]]),
   (.text "enums", .bool true),
   (.text "signals", .null)]

/-- Every faulty section is reported, in the order of the document. -/
theorem mixedEntries_lowering :
    (ofValue (.mapping mixedEntries)).outcome =
        .error [.schema .sectionName, .invalidField "pair_t" "left",
          .schema (.notExpression "LEFT" "4 4"),
          .schema (.record (.wrongType (.bool true) .sequence)),
          .schema (.unknownSection "signals")] ∧
      ∃ parts, List.Forall₂ Outcomes mixedEntries parts ∧
        errorsIn parts.flatten =
          [.schema .sectionName, .invalidField "pair_t" "left",
            .schema (.notExpression "LEFT" "4 4"),
            .schema (.record (.wrongType (.bool true) .sequence)),
            .schema (.unknownSection "signals")] := by
  have herror : (ofValue (.mapping mixedEntries)).outcome =
      .error [.schema .sectionName, .invalidField "pair_t" "left",
        .schema (.notExpression "LEFT" "4 4"),
        .schema (.record (.wrongType (.bool true) .sequence)),
        .schema (.unknownSection "signals")] := by
    rfl
  refine ⟨herror, ?_⟩
  rcases ((lowering_exact (.mapping mixedEntries)).2 _).mp herror with
    ⟨⟨⟩, _⟩ | ⟨_, _, ⟨⟩⟩ | ⟨_, parts, ⟨⟩, hparts, ⟨herrors, _⟩ | ⟨_, _, ⟨⟩⟩⟩
  exact ⟨parts, hparts, herrors.symm⟩

end Schema

end WireSchema
