import Mathlib.Data.List.Basic
import WireSchema.Proofs.Lists
import WireSchema.Proofs.PlanSemantics
import WireSchema.Schema
import WireSchema.SymbolTable

/-!
# The integers of a schema

Every integer in an expression is a 64-bit signed integer.  Numbers are checked as a
record is read, and texts as they are parsed.  A record is read field by field, so a
property of its fields that each field keeps is a property of the record
(`Record.Shape.read_invariant`).
-/

namespace WireSchema

open WireSchema.Yaml (Value)

/-! ### Expressions -/

def Expr.Signed : Expr → Prop
  | .literal n => isSigned64 n = true
  | .ref _ _ => True

def Field.expr? (f : Field) : Option Expr :=
  match f.type with
  | .logic e => some e
  | .named _ => none

def Decl.exprs : Decl → List Expr
  | .parameter p => [p.value]
  | .enum e => [e.width]
  | .typedef d => [d.width]
  | .struct s => s.fields.filterMap Field.expr?

def Decl.Signed (d : Decl) : Prop := ∀ e ∈ d.exprs, e.Signed

/-- The integers in the expressions of a table are 64-bit signed integers.  A schema has
    no others: `Schema.signed_of_ofText`. -/
def SymbolTable.Signed (t : SymbolTable) : Prop := ∀ d ∈ t.decls, d.Signed

theorem SymbolTable.Signed.get {t : SymbolTable} (ht : t.Signed) (id : t.Id) :
    (t.get id).Signed :=
  ht (t.get id) (List.get_mem t.decls id)

instance : DecidablePred Expr.Signed
  | .literal n => inferInstanceAs (Decidable (isSigned64 n = true))
  | .ref _ _ => inferInstanceAs (Decidable True)

instance (d : Decl) : Decidable d.Signed :=
  inferInstanceAs (Decidable (∀ e ∈ d.exprs, e.Signed))

instance (t : SymbolTable) : Decidable t.Signed :=
  inferInstanceAs (Decidable (∀ d ∈ t.decls, d.Signed))

/-- A literal out of range is not parsed. -/
theorem Expr.signed_of_parse {text : String} {e : Expr} (h : Expr.parse text = some e) :
    e.Signed := by
  unfold parse parseChars literal? at h
  split at h
  · rename_i n hn
    split at hn
    · split at hn
      · rename_i hsigned
        cases hn
        cases h
        exact hsigned
      · cases hn
    · cases hn
  · split at h
    · split at h
      · cases h
        trivial
      · cases h
    · cases h

/-! ### Records -/

namespace Record

/-- What holds of no fields and is kept by every field holds of all fields of a record, in
    whichever form it is written. -/
theorem Shape.read_invariant {slots ρ : Type} {shape : Shape slots ρ} {P : slots → Prop}
    {Q : ρ → Prop} (hempty : P shape.empty)
    (hput : ∀ s name value s', P s → shape.put s name value = .ok s' → P s')
    (hfinish : ∀ missing s r, P s → shape.finish missing s = .ok r → Q r) {value : Value}
    {r : ρ} (h : shape.read value = .ok r) : Q r := by
  unfold read at h
  split at h
  · rename_i entries
    simp only [readMapping, except_bind_eq_ok_iff] at h
    obtain ⟨s, hs, hr⟩ := h
    refine hfinish _ s r (foldlM_invariant ?_ hempty hs) hr
    intro s entry s' hP hentry
    unfold putEntry at hentry
    split at hentry
    · split at hentry
      · exact hput s _ _ s' hP hentry
      · cases hentry
    · cases hentry
  · simp only [readItems, except_bind_eq_ok_iff] at h
    obtain ⟨s, hs, record, hrecord, h⟩ := h
    split at h
    · cases h
    · cases h
      refine hfinish _ s _ (foldlM_invariant ?_ hempty hs) hrecord
      intro s entry s' hP hentry
      exact hput s _ _ s' hP hentry
  · cases h

def Source.Signed : Source → Prop
  | .number n => isSigned64 n = true
  | .text _ => True

theorem signed_of_source {value : Value} {src : Source} (h : source value = .ok src) :
    src.Signed := by
  unfold source at h
  split at h
  · split at h
    · rename_i hsigned
      cases h
      exact hsigned
    · cases h
  · cases h
    trivial
  · cases h

theorem need_eq_ok_iff {α : Type} {missing : String → RecordFault} {name : String}
    {slot : Option α} {a : α} : need missing name slot = .ok a ↔ slot = some a := by
  unfold need
  cases slot <;> simp

/-- A slot that is filled from written expressions only holds signed ones. -/
theorem Shape.read_source {slots ρ : Type} {shape : Shape slots ρ}
    (slot : slots → Option Source) {Q : ρ → Prop} (hempty : slot shape.empty = none)
    (hput : ∀ s name value s' src, shape.put s name value = .ok s' → slot s' = some src →
      slot s = some src ∨ source value = .ok src)
    (hfinish : ∀ missing s r, shape.finish missing s = .ok r →
      (∀ src, slot s = some src → src.Signed) → Q r) {value : Value} {r : ρ}
    (h : shape.read value = .ok r) : Q r := by
  refine Shape.read_invariant (P := fun s => ∀ src, slot s = some src →
      src.Signed) ?_ ?_ ?_ h
  · intro src hsrc
    rw [hempty] at hsrc
    cases hsrc
  · intro s name value s' hs h src hsrc
    rcases hput s name value s' src h hsrc with hold | hnew
    · exact hs src hold
    · exact signed_of_source hnew
  · intro missing s r hs h
    exact hfinish missing s r h hs

theorem signed_of_parameter {value : Value} {r : ParameterRecord}
    (h : parameter.read value = .ok r) : r.value.Signed := by
  refine Shape.read_source ParameterSlots.value (Q := fun r => r.value.Signed) rfl ?_ ?_ h
  · intro s name value s' src hput hsrc
    simp only [parameter] at hput
    split_ifs at hput <;> obtain ⟨a, ha, ⟨⟩⟩ := except_bind_eq_ok_iff.mp hput
    · exact .inl hsrc
    · cases hsrc
      exact .inr ha
    · exact .inl hsrc
  · intro missing s r hr hs
    simp only [parameter, except_bind_eq_ok_iff, need_eq_ok_iff] at hr
    obtain ⟨_, _, src, hsrc, _, _, ⟨⟩⟩ := hr
    exact hs src hsrc

theorem signed_of_enum {value : Value} {r : EnumRecord} (h : enum.read value = .ok r) :
    r.width.Signed := by
  refine Shape.read_source EnumSlots.width (Q := fun r => r.width.Signed) rfl ?_ ?_ h
  · intro s name value s' src hput hsrc
    simp only [enum] at hput
    split_ifs at hput <;> obtain ⟨a, ha, ⟨⟩⟩ := except_bind_eq_ok_iff.mp hput
    · exact .inl hsrc
    · cases hsrc
      exact .inr ha
    · exact .inl hsrc
    · exact .inl hsrc
  · intro missing s r hr hs
    simp only [enum, except_bind_eq_ok_iff, need_eq_ok_iff] at hr
    obtain ⟨_, _, src, hsrc, _, _, ⟨⟩⟩ := hr
    exact hs src hsrc

theorem signed_of_typedef {value : Value} {r : TypedefRecord}
    (h : typedef.read value = .ok r) : r.width.Signed := by
  refine Shape.read_source TypedefSlots.width (Q := fun r => r.width.Signed) rfl ?_ ?_ h
  · intro s name value s' src hput hsrc
    simp only [typedef] at hput
    split_ifs at hput <;> obtain ⟨a, ha, ⟨⟩⟩ := except_bind_eq_ok_iff.mp hput
    · exact .inl hsrc
    · exact .inl hsrc
    · cases hsrc
      exact .inr ha
    · exact .inl hsrc
  · intro missing s r hr hs
    simp only [typedef, except_bind_eq_ok_iff, need_eq_ok_iff] at hr
    obtain ⟨_, _, _, _, src, hsrc, _, _, ⟨⟩⟩ := hr
    exact hs src hsrc

theorem ok_of_nullable {α : Type} {read : Value → Read α} {value : Value} {a : α}
    (h : nullable read value = .ok (some a)) : read value = .ok a := by
  unfold nullable at h
  split at h
  · cases h
  · cases hread : read value with
    | error e => simp [hread, Except.map] at h
    | ok found =>
      simp only [hread, Except.map, Except.ok.injEq, Option.some.injEq] at h
      rw [h]

theorem signed_of_field {value : Value} {r : FieldRecord} (h : field.read value = .ok r) :
    ∀ src, r.width = some src → src.Signed := by
  refine Shape.read_source FieldSlots.width (Q := fun r => ∀ src, r.width = some src →
      src.Signed) rfl ?_ ?_ h
  · intro s name value s' src hput hsrc
    simp only [field] at hput
    split_ifs at hput <;> obtain ⟨a, ha, ⟨⟩⟩ := except_bind_eq_ok_iff.mp hput
    · exact .inl hsrc
    · exact .inl hsrc
    · cases hsrc
      exact .inr (ok_of_nullable ha)
    · exact .inl hsrc
  · intro missing s r hr hs
    simp only [field, except_bind_eq_ok_iff, need_eq_ok_iff] at hr
    obtain ⟨_, _, _, _, _, _, ⟨⟩⟩ := hr
    exact hs

theorem forall_of_list {α : Type} {read : Value → Read α} {Q : α → Prop}
    (hread : ∀ value a, read value = .ok a → Q a) {value : Value} {as : List α}
    (h : list read value = .ok as) : ∀ a ∈ as, Q a := by
  unfold list at h
  split at h
  · intro a ha
    obtain ⟨item, _, hitem⟩ := exists_of_mapM_ok h ha
    exact hread item a hitem
  · cases h

theorem signed_of_struct {value : Value} {r : StructRecord}
    (h : struct.read value = .ok r) :
    ∀ f ∈ r.fields, ∀ src, f.width = some src → src.Signed := by
  refine Shape.read_invariant (P := fun s => ∀ f ∈ s.fields, ∀ src, f.width = some src →
      src.Signed) (Q := fun r => ∀ f ∈ r.fields, ∀ src, f.width = some src →
      src.Signed) ?_ ?_ ?_ h
  · intro f hf
    cases hf
  · intro s name value s' hs hput
    simp only [struct] at hput
    split_ifs at hput <;> obtain ⟨a, ha, ⟨⟩⟩ := except_bind_eq_ok_iff.mp hput
    · exact hs
    · exact forall_of_list (fun _ _ => signed_of_field) ha
    · exact hs
  · intro missing s r hs hr
    simp only [struct, except_bind_eq_ok_iff, need_eq_ok_iff] at hr
    obtain ⟨_, _, _, _, ⟨⟩⟩ := hr
    exact hs

end Record

/-! ### Schemas -/

namespace Schema

theorem signed_of_lowerExpr {owner : String} {src : Record.Source} {e : Expr}
    (hsrc : src.Signed) (h : lowerExpr owner src = .ok e) : e.Signed := by
  unfold lowerExpr at h
  split at h
  · cases h
    exact hsrc
  · split at h
    · rename_i hparse
      cases h
      exact Expr.signed_of_parse hparse
    · cases h

theorem signed_of_lowerField {owner : String} {r : Record.FieldRecord}
    (hr : ∀ src, r.width = some src → src.Signed) {f : Field}
    (h : lowerField owner r = .ok f) : ∀ e, f.expr? = some e → e.Signed := by
  intro e he
  unfold lowerField at h
  split at h
  · split at h
    · rename_i width hwidth
      obtain ⟨type, htype, ⟨⟩⟩ := except_bind_eq_ok_iff.mp h
      cases hlower : lowerExpr owner width with
      | error fault => simp [hlower, Except.map] at htype
      | ok found =>
        simp only [hlower, Except.map, Except.ok.injEq] at htype
        cases htype
        cases he
        exact signed_of_lowerExpr (hr width hwidth) hlower
    · cases h
      cases he
      decide
  · split at h
    · cases h
    · cases h
      cases he

/-- A declaration with one expression, which is lowered from a signed source. -/
theorem signed_of_lower {owner : String} {src : Record.Source} {make : Expr → Decl}
    (hsrc : src.Signed) {d : Decl}
    (h : (do return make (← lowerExpr owner src)) = Except.ok d)
    (hmake : ∀ e, (make e).exprs = [e]) : d.Signed := by
  obtain ⟨e, he, ⟨⟩⟩ := except_bind_eq_ok_iff.mp h
  intro x hx
  rw [hmake e, List.mem_singleton] at hx
  rw [hx]
  exact signed_of_lowerExpr hsrc he

theorem signed_of_lowerStruct {r : Record.StructRecord}
    (hr : ∀ f ∈ r.fields, ∀ src, f.width = some src → src.Signed) {d : Decl}
    (h : lowerStruct r = .ok d) : d.Signed := by
  obtain ⟨fields, hfields, ⟨⟩⟩ := except_bind_eq_ok_iff.mp h
  intro e he
  obtain ⟨f, hf, he⟩ := List.mem_filterMap.mp he
  obtain ⟨record, hrecord, hlower⟩ := exists_of_mapM_ok hfields hf
  exact signed_of_lowerField (hr record hrecord) hlower e he

theorem signed_of_lowerAll {ρ : Type} {lower : ρ → Except Error Decl} {rs : List ρ}
    (hlower : ∀ r ∈ rs, ∀ d, lower r = .ok d → d.Signed) :
    ∀ d ∈ (lowerAll lower rs).1, d.Signed := by
  induction rs with
  | nil =>
    intro d hd
    cases hd
  | cons r rs ih =>
    have hrest := ih fun r' hr' => hlower r' (List.mem_cons_of_mem r hr')
    unfold lowerAll
    cases hr : lower r with
    | error e => exact hrest
    | ok first =>
      intro d hd
      rcases List.mem_cons.mp hd with rfl | hd
      · exact hlower r List.mem_cons_self d hr
      · exact hrest d hd

/-- The declarations of a section hold signed integers if those of every record do. -/
theorem signed_of_readSection {slots ρ : Type} {shape : Record.Shape slots ρ}
    {lower : ρ → Except Error Decl}
    (h : ∀ value r d, shape.read value = .ok r → lower r = .ok d → d.Signed)
    (value : Value) : ∀ d ∈ (readSection shape lower value).1, d.Signed := by
  unfold readSection
  cases hread : Record.nullable (Record.list shape.read) value with
  | error fault =>
    intro d hd
    cases hd
  | ok records =>
    apply signed_of_lowerAll
    cases records with
    | none =>
      intro r hr
      cases hr
    | some rs =>
      have hlist : Record.list shape.read value = .ok rs := Record.ok_of_nullable hread
      exact Record.forall_of_list (fun v r hr d => h v r d hr) hlist

namespace Progress

theorem signed_addDecls {p : Progress} (hp : ∀ d ∈ p.schema.decls, d.Signed)
    {part : List Decl × List Error} (hpart : ∀ d ∈ part.1, d.Signed) :
    ∀ d ∈ (p.addDecls part).schema.decls, d.Signed := by
  intro d hd
  rcases List.mem_append.mp hd with hd | hd
  · exact hp d hd
  · exact hpart d hd

/-- No section brings an integer that is not signed. -/
theorem signed_addEntry {p : Progress} (hp : ∀ d ∈ p.schema.decls, d.Signed)
    (entry : Value × Value) : ∀ d ∈ (p.addEntry entry).schema.decls, d.Signed := by
  have hdoc : ∀ name value (put : Schema → Option String → Schema),
      (∀ s doc, (put s doc).decls = s.decls) →
      ∀ d ∈ (p.addDoc name value put).schema.decls, d.Signed := by
    intro name value put hput
    unfold addDoc
    cases readDoc name value with
    | error e => exact hp
    | ok doc =>
      simp only [hput]
      exact hp
  unfold addEntry
  split
  · unfold addSection
    split_ifs
    · exact hdoc _ _ _ fun _ _ => rfl
    · exact hdoc _ _ _ fun _ _ => rfl
    · refine signed_addDecls hp (signed_of_readSection (fun _ _ _ hr h => ?_) _)
      exact signed_of_lower (Record.signed_of_parameter hr) h fun _ => rfl
    · refine signed_addDecls hp (signed_of_readSection (fun _ _ _ hr h => ?_) _)
      exact signed_of_lower (Record.signed_of_enum hr) h fun _ => rfl
    · refine signed_addDecls hp (signed_of_readSection (fun _ _ _ hr h => ?_) _)
      exact signed_of_lower (Record.signed_of_typedef hr) h fun _ => rfl
    · refine signed_addDecls hp (signed_of_readSection (fun _ _ _ hr h => ?_) _)
      exact signed_of_lowerStruct (Record.signed_of_struct hr) h
    · exact hp
  · exact hp

theorem signed_foldl {entries : List (Value × Value)} {p : Progress}
    (hp : ∀ d ∈ p.schema.decls, d.Signed) :
    ∀ d ∈ (entries.foldl addEntry p).schema.decls, d.Signed := by
  induction entries generalizing p with
  | nil => exact hp
  | cons entry entries ih => exact ih (signed_addEntry hp entry)

end Progress

/-- **The integers of a schema that can be read are 64-bit signed integers.** -/
theorem signed_of_ofText {text : String} {schema : Schema}
    (h : (ofText text).outcome = .ok schema) : ∀ d ∈ schema.decls, d.Signed := by
  unfold ofText at h
  split at h
  · cases h
  · split at h
    · rename_i value _
      cases value with
      | mapping entries =>
        have hsigned : ∀ d ∈ (entries.foldl Progress.addEntry {}).schema.decls,
            d.Signed := by
          apply Progress.signed_foldl
          intro d hd
          cases hd
        simp only [ofValue, Progress.finish] at h
        split_ifs at h
        cases h
        exact hsigned
      | _ => cases h
    · cases h

end Schema

end WireSchema
