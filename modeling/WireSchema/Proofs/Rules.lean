import Mathlib.Algebra.BigOperators.Group.List.Basic
import WireSchema.Proofs.Literals
import WireSchema.Proofs.PlanSemantics
import WireSchema.Proofs.Words

/-!
# What the rules of widths and values say

The plans of `WireSchema.Plan` read through `Yields`, `Asks` and `Raises`.  The lemmas for
`Yields` are the arithmetic of the language with every check made explicit; those for
`Asks` and `Raises` tie the questions and the objections of a declaration to what is
written in it.
-/

namespace WireSchema

namespace Plan

/-- A width is a positive word. -/
theorem checkedWidth_eq_ok_iff {name : String} {z : Int} {n : Nat} :
    checkedWidth name z = .ok n ↔ z = n ∧ 1 ≤ n ∧ n < wordLimit := by
  unfold checkedWidth
  split
  · rename_i h
    simp only [reduceCtorEq, false_iff]
    omega
  · rename_i h
    cases hz : word? z with
    | none =>
      simp only [reduceCtorEq, false_iff]
      rintro ⟨rfl, _, hn⟩
      have := word?_eq_some_iff.mpr ⟨rfl, hn⟩
      rw [hz] at this
      cases this
    | some m =>
      obtain ⟨rfl, hm⟩ := word?_eq_some_iff.mp hz
      simp only [Except.ok.injEq]
      omega

theorem checkedSum_eq_ok_iff {name : String} {m n : Nat} :
    checkedSum name m = .ok n ↔ m = n ∧ n < wordLimit := by
  unfold checkedSum
  split
  · rename_i h
    simp only [Except.ok.injEq]
    omega
  · rename_i h
    simp only [reduceCtorEq, false_iff]
    omega

theorem checkedValue_eq_ok_iff {name : String} {z : Int} {n : Nat} :
    checkedValue name z = .ok n ↔ z = n ∧ n < wordLimit := by
  unfold checkedValue
  rw [← word?_eq_some_iff]
  cases word? z <;> simp

variable {t : SymbolTable} {A : Key t → Nat → Prop}

/-! ### Results -/

/-- The value of an expression, if quantities are as `A` says. -/
def Denotes (A : Key t → Nat → Prop) : Expr → Int → Prop
  | .literal k, z => z = k
  | .ref name .value, z =>
    ∃ id v, t.lookup name = some id ∧ (t.get id).kind = .parameter ∧ A ⟨id, .value⟩ v ∧
      z = (v : Int)
  | .ref name .width, z =>
    ∃ id w, t.lookup name = some id ∧ A ⟨id, .width⟩ w ∧ z = (w : Int)

def TypeHasWidth (A : Key t → Nat → Prop) (type : String) (w : Nat) : Prop :=
  ∃ id, t.lookup type = some id ∧ (t.get id).kind ≠ .parameter ∧ A ⟨id, .width⟩ w

def FieldHasWidth (A : Key t → Nat → Prop) (f : Field) (w : Nat) : Prop :=
  match f.type with
  | .logic e => Denotes A e w ∧ 1 ≤ w ∧ w < wordLimit
  | .named type => TypeHasWidth A type w

/-- Evaluating an expression gives its value. -/
theorem yields_eval {owner : String} {e : Expr} {z : Int} :
    Yields A (eval owner e) z ↔ Denotes A e z := by
  match e with
  | .literal k => simp [eval, Yields, Denotes, eq_comm]
  | .ref name .value =>
    simp only [eval, yields_bind, yields_ofExcept, SymbolTable.resolveRef_eq_ok_iff,
        Denotes]
    constructor
    · rintro ⟨id, hid, h⟩
      split at h
      · rename_i hk
        obtain ⟨v, hv, hz⟩ := yields_bind.mp h
        exact ⟨id, v, hid, hk, yields_ask_done.mp hv, hz.symm⟩
      · exact h.elim
    · rintro ⟨id, v, hid, hk, hv, rfl⟩
      refine ⟨id, hid, ?_⟩
      rw [if_pos hk]
      exact yields_bind.mpr ⟨v, yields_ask_done.mpr hv, rfl⟩
  | .ref name .width =>
    simp only [eval, yields_bind, yields_ofExcept, SymbolTable.resolveRef_eq_ok_iff,
        widthOf, yields_ask_done, Denotes]
    constructor
    · rintro ⟨id, hid, w, hw, hz⟩
      exact ⟨id, w, hid, hw, hz.symm⟩
    · rintro ⟨id, w, hid, hw, rfl⟩
      exact ⟨id, hid, w, hw, rfl⟩

theorem yields_typeRef {owner type : String} {id : t.Id} :
    Yields A (typeRef owner type) id ↔ t.lookup type = some id ∧
      (t.get id).kind ≠ .parameter := by
  simp only [typeRef, yields_bind, yields_ofExcept, SymbolTable.resolveRef_eq_ok_iff]
  constructor
  · rintro ⟨found, hfound, h⟩
    split at h
    · exact h.elim
    · rename_i hk
      obtain rfl : found = id := h
      exact ⟨hfound, hk⟩
  · rintro ⟨hid, hk⟩
    refine ⟨id, hid, ?_⟩
    rw [if_neg hk]
    rfl

theorem yields_typeWidth {owner type : String} {w : Nat} :
    Yields A (typeWidth owner type) w ↔ TypeHasWidth A type w := by
  simp only [typeWidth, yields_bind, yields_typeRef, widthOf, yields_ask_done,
      TypeHasWidth, and_assoc]

theorem yields_fieldWidth {owner : String} {f : Field} {w : Nat} :
    Yields A (fieldWidth owner f) w ↔ FieldHasWidth A f w := by
  unfold fieldWidth FieldHasWidth
  cases f.type with
  | logic e => simp [yields_bind, yields_eval, checkedWidth_eq_ok_iff]
  | named type => exact yields_typeWidth

/-- Adding up the widths of fields gives their sum; the word limit is kept at every step
    because it is kept at the end. -/
theorem yields_fieldsWidth {owner : String} {fs : List Field} {total n : Nat}
    (htotal : total < wordLimit) :
    Yields A (fieldsWidth owner total fs) n ↔
      ∃ ws, List.Forall₂ (FieldHasWidth A) fs ws ∧ n = total + ws.sum ∧ n < wordLimit := by
  induction fs generalizing total with
  | nil =>
    simp only [fieldsWidth, Yields, List.forall₂_nil_left_iff, exists_eq_left, List.sum_nil]
    omega
  | cons f fs ih =>
    simp only [fieldsWidth, yields_bind, yields_fieldWidth, yields_ofExcept,
        checkedSum_eq_ok_iff]
    constructor
    · rintro ⟨w, hw, _, ⟨rfl, hlimit⟩, h⟩
      obtain ⟨ws, hws, hn, hnlimit⟩ := (ih hlimit).mp h
      refine ⟨w :: ws, List.Forall₂.cons hw hws, ?_, hnlimit⟩
      rw [hn, List.sum_cons]
      omega
    · rintro ⟨ws, hws, hn, hnlimit⟩
      cases hws with
      | @cons _ w _ ws hw hws =>
        rw [List.sum_cons] at hn
        have hlimit : total + w < wordLimit := by omega
        refine ⟨w, hw, total + w, ⟨rfl, hlimit⟩, (ih hlimit).mpr ⟨ws, hws, ?_, hnlimit⟩⟩
        omega

/-! ### The width of each kind of declaration -/

section Widths

variable {id : t.Id} {n : Nat}

theorem yields_width_parameter {p : Parameter} (h : t.get id = .parameter p) :
    Yields A (rule ⟨id, .width⟩) n ↔ ∃ v, A ⟨id, .value⟩ v ∧ n = bitWidth v := by
  simp [rule, widthRule, h, yields_bind, valueOf, eq_comm]

theorem yields_width_enum {e : EnumDef} (h : t.get id = .enum e) :
    Yields A (rule ⟨id, .width⟩) n ↔ Denotes A e.width n ∧ 1 ≤ n ∧ n < wordLimit := by
  simp [rule, widthRule, h, yields_bind, yields_eval, checkedWidth_eq_ok_iff]

theorem yields_width_logic {d : Typedef} (h : t.get id = .typedef d)
    (hbase : d.base = none) :
    Yields A (rule ⟨id, .width⟩) n ↔ Denotes A d.width n ∧ 1 ≤ n ∧ n < wordLimit := by
  simp [rule, widthRule, h, hbase, yields_bind, yields_eval, checkedWidth_eq_ok_iff]

/-- An array is as wide as its count times its base. -/
theorem yields_width_array {d : Typedef} {base : String} (h : t.get id = .typedef d)
    (hbase : d.base = some base) :
    Yields A (rule ⟨id, .width⟩) n ↔
      ∃ count : Nat, Denotes A d.width count ∧ 1 ≤ count ∧ count < wordLimit ∧
        ∃ each, TypeHasWidth A base each ∧ n = each * count ∧ n < wordLimit := by
  simp only [rule, widthRule, h, hbase, yields_bind, yields_eval, yields_ofExcept,
      checkedWidth_eq_ok_iff, yields_typeWidth, checkedSum_eq_ok_iff]
  constructor
  · rintro ⟨_, hz, count, ⟨rfl, hpos, hlimit⟩, each, heach, rfl, hn⟩
    exact ⟨count, hz, hpos, hlimit, each, heach, rfl, hn⟩
  · rintro ⟨count, hz, hpos, hlimit, each, heach, rfl, hn⟩
    exact ⟨count, hz, count, ⟨rfl, hpos, hlimit⟩, each, heach, rfl, hn⟩

theorem yields_width_struct {s : StructDef} (h : t.get id = .struct s) :
    Yields A (rule ⟨id, .width⟩) n ↔
      ∃ ws, List.Forall₂ (FieldHasWidth A) s.fields ws ∧ n = ws.sum ∧ n < wordLimit := by
  simp [rule, widthRule, h, yields_fieldsWidth wordLimit_pos]

theorem yields_value_parameter {p : Parameter} (h : t.get id = .parameter p) :
    Yields A (rule ⟨id, .value⟩) n ↔ Denotes A p.value n ∧ n < wordLimit := by
  simp [rule, valueRule, h, yields_bind, yields_eval, checkedValue_eq_ok_iff]

/-- Only parameters have a value. -/
theorem yields_value_kind (h : Yields A (rule ⟨id, .value⟩) n) :
    ∃ p, t.get id = .parameter p := by
  unfold rule valueRule at h
  cases hd : t.get id with
  | parameter p => exact ⟨p, rfl⟩
  | enum e => simp [hd, Yields] at h
  | typedef d => simp [hd, Yields] at h
  | struct s => simp [hd, Yields] at h

end Widths

/-! ### Questions -/

/-- A question about the declaration `name` that it can answer: only a parameter has a
    value. -/
def Concerns (name : String) (k : Key t) : Prop :=
  t.lookup name = some k.id ∧ (k.quantity = .value → (t.get k.id).kind = .parameter)

theorem asks_eval {owner : String} {e : Expr} {k : Key t} (h : Asks A (eval owner e) k) :
    ∃ name, e.reference = some name ∧ Concerns name k := by
  match e with
  | .literal n => exact h.elim
  | .ref name .value =>
    rcases asks_bind.mp h with h | ⟨id, hid, h⟩
    · exact (asks_ofExcept h).elim
    · rw [yields_ofExcept, SymbolTable.resolveRef_eq_ok_iff] at hid
      split at h
      · rename_i hkind
        rcases asks_bind.mp h with h | ⟨_, _, h⟩
        · rcases h with rfl | ⟨_, _, h⟩
          · exact ⟨name, rfl, hid, fun _ => hkind⟩
          · exact h.elim
        · exact h.elim
      · exact h.elim
  | .ref name .width =>
    rcases asks_bind.mp h with h | ⟨id, hid, h⟩
    · exact (asks_ofExcept h).elim
    · rw [yields_ofExcept, SymbolTable.resolveRef_eq_ok_iff] at hid
      rcases asks_bind.mp h with h | ⟨_, _, h⟩
      · rcases h with rfl | ⟨_, _, h⟩
        · exact ⟨name, rfl, hid, nofun⟩
        · exact h.elim
      · exact h.elim

theorem asks_typeRef {owner type : String} {k : Key t} :
    ¬ Asks A (typeRef owner type) k := by
  intro h
  rcases asks_bind.mp h with h | ⟨id, _, h⟩
  · exact asks_ofExcept h
  · split at h <;> exact h.elim

theorem asks_typeWidth {owner type : String} {k : Key t}
    (h : Asks A (typeWidth owner type) k) : Concerns type k := by
  rcases asks_bind.mp h with h | ⟨id, hid, h⟩
  · exact (asks_typeRef h).elim
  · rcases h with rfl | ⟨_, _, h⟩
    · exact ⟨(yields_typeRef.mp hid).1, nofun⟩
    · exact h.elim

theorem asks_fieldWidth {owner : String} {f : Field} {k : Key t}
    (h : Asks A (fieldWidth owner f) k) :
    ∃ name, f.type.reference = some name ∧ Concerns name k := by
  unfold fieldWidth at h
  cases hf : f.type with
  | logic e =>
    rw [hf] at h
    rcases asks_bind.mp h with h | ⟨_, _, h⟩
    · exact asks_eval h
    · exact (asks_ofExcept h).elim
  | named type =>
    rw [hf] at h
    exact ⟨type, rfl, asks_typeWidth h⟩

theorem asks_fieldsWidth {owner : String} {fs : List Field} {total : Nat} {k : Key t}
    (h : Asks A (fieldsWidth owner total fs) k) :
    ∃ f ∈ fs, ∃ name, f.type.reference = some name ∧ Concerns name k := by
  induction fs generalizing total with
  | nil => exact h.elim
  | cons f fs ih =>
    rcases asks_bind.mp h with h | ⟨w, _, h⟩
    · exact ⟨f, List.mem_cons_self, asks_fieldWidth h⟩
    · rcases asks_bind.mp h with h | ⟨sum, _, h⟩
      · exact (asks_ofExcept h).elim
      · obtain ⟨g, hg, hname⟩ := ih h
        exact ⟨g, List.mem_cons_of_mem f hg, hname⟩

def Derived (key : Key t) : Prop := key.quantity = .width ∧ (t.get key.id).kind = .parameter

/-- The rule of a quantity asks only for the value that a width is derived from, or about
    names that the declaration refers to. -/
theorem concerns_of_asks_rule {key k : Key t} (h : Asks A (rule key) k) :
    (Derived key ∧ k = ⟨key.id, .value⟩) ∨
      (¬ Derived key ∧ ∃ name ∈ (t.get key.id).references, Concerns name k) := by
  obtain ⟨id, quantity⟩ := key
  cases quantity with
  | width =>
    simp only [rule, widthRule] at h
    cases hd : t.get id with
    | parameter p =>
      rw [hd] at h
      rcases asks_bind.mp h with (rfl | ⟨_, _, h⟩) | ⟨_, _, h⟩
      · exact Or.inl ⟨⟨rfl, by rw [hd, Decl.kind]⟩, rfl⟩
      · exact h.elim
      · exact h.elim
    | enum e =>
      rw [hd] at h
      rcases asks_bind.mp h with h | ⟨_, _, h⟩
      · obtain ⟨name, hname, hk⟩ := asks_eval h
        exact Or.inr ⟨by simp [Derived, hd, Decl.kind], name,
          by simp [Decl.references, hname], hk⟩
      · exact (asks_ofExcept h).elim
    | typedef d =>
      rw [hd] at h
      rcases asks_bind.mp h with h | ⟨_, _, h⟩
      · obtain ⟨name, hname, hk⟩ := asks_eval h
        exact Or.inr ⟨by simp [Derived, hd, Decl.kind], name,
          by simp [Decl.references, hname], hk⟩
      rcases asks_bind.mp h with h | ⟨_, _, h⟩
      · exact (asks_ofExcept h).elim
      cases hbase : d.base with
      | none =>
        simp only [hbase] at h
        exact h.elim
      | some base =>
        simp only [hbase] at h
        rcases asks_bind.mp h with h | ⟨_, _, h⟩
        · exact Or.inr ⟨by simp [Derived, hd, Decl.kind], base,
            by simp [Decl.references, hbase], asks_typeWidth h⟩
        · exact (asks_ofExcept h).elim
    | struct s =>
      rw [hd] at h
      obtain ⟨f, hf, name, hname, hk⟩ := asks_fieldsWidth h
      refine Or.inr ⟨by simp [Derived, hd, Decl.kind], name, ?_, hk⟩
      exact List.mem_filterMap.mpr ⟨f, hf, hname⟩
  | value =>
    simp only [rule, valueRule] at h
    cases hd : t.get id with
    | parameter p =>
      rw [hd] at h
      rcases asks_bind.mp h with h | ⟨_, _, h⟩
      · obtain ⟨name, hname, hk⟩ := asks_eval h
        exact Or.inr ⟨by simp [Derived], name, by simp [Decl.references, hname], hk⟩
      · exact (asks_ofExcept h).elim
    | enum e =>
      rw [hd] at h
      exact h.elim
    | typedef d =>
      rw [hd] at h
      exact h.elim
    | struct s =>
      rw [hd] at h
      exact h.elim

/-- **The questions of a rule.**  To work out a quantity of a declaration, the resolver
    asks for quantities of the declarations it refers to; only for the width of a
    parameter it asks for its value instead. -/
theorem asks_rule {key k : Key t} (h : Asks A (rule key) k) :
    (Derived key ∧ k = ⟨key.id, .value⟩) ∨ (¬ Derived key ∧ t.Refers key.id k.id) := by
  rcases concerns_of_asks_rule h with hderived | ⟨hnot, name, hname, hlookup, _⟩
  · exact Or.inl hderived
  · exact Or.inr ⟨hnot, name, hname, hlookup⟩

/-- A rule asks for the value of a parameter only. -/
theorem kind_of_asks_rule {key k : Key t} (h : Asks A (rule key) k)
    (hk : k.quantity = .value) : (t.get k.id).kind = .parameter := by
  rcases concerns_of_asks_rule h with ⟨⟨_, hkind⟩, rfl⟩ | ⟨_, name, _, _, hkind⟩
  · exact hkind
  · exact hkind hk

end Plan

/-! ### Objections -/

namespace Decl

inductive UsesAsType : Decl → String → Prop
  | base {d : Typedef} {name : String} (hbase : d.base = some name) :
      UsesAsType (.typedef d) name
  | field {s : StructDef} {f : Field} {name : String} (hf : f ∈ s.fields)
      (htype : f.type = .named name) : UsesAsType (.struct s) name

/-- The declaration gives a width by an expression; errors call the width `name`. -/
inductive GivesWidth : Decl → String → Expr → Prop
  | enum (e : EnumDef) : GivesWidth (.enum e) e.name e.width
  | typedef (d : Typedef) : GivesWidth (.typedef d) d.name d.width
  | field {s : StructDef} {f : Field} {e : Expr} (hf : f ∈ s.fields)
      (htype : f.type = .logic e) : GivesWidth (.struct s) (qualified s.name f.name) e

theorem mem_references_of_mem_exprs {d : Decl} {e : Expr} {name : String} (he : e ∈ d.exprs)
    (hname : e.reference = some name) : name ∈ d.references := by
  cases d with
  | parameter p =>
    rw [List.mem_singleton.mp he] at hname
    simp [references, hname]
  | enum e' =>
    rw [List.mem_singleton.mp he] at hname
    simp [references, hname]
  | typedef d =>
    rw [List.mem_singleton.mp he] at hname
    simp [references, hname]
  | struct s =>
    obtain ⟨f, hf, he⟩ := List.mem_filterMap.mp he
    refine List.mem_filterMap.mpr ⟨f, hf, ?_⟩
    unfold Field.expr? at he
    cases htype : f.type with
    | logic e' =>
      rw [htype] at he
      cases he
      exact hname
    | named type => simp [htype] at he

theorem UsesAsType.mem_references {d : Decl} {name : String} (h : d.UsesAsType name) :
    name ∈ d.references := by
  cases h with
  | base hbase => simp [references, hbase]
  | field hf htype => exact List.mem_filterMap.mpr ⟨_, hf, by rw [htype]; rfl⟩

theorem GivesWidth.mem_exprs {d : Decl} {name : String} {e : Expr}
    (h : d.GivesWidth name e) : e ∈ d.exprs := by
  cases h with
  | enum e => exact List.mem_singleton_self _
  | typedef d => exact List.mem_singleton_self _
  | field hf htype => exact List.mem_filterMap.mpr ⟨_, hf, by rw [Field.expr?, htype]⟩

end Decl

namespace Plan

variable {t : SymbolTable} {A : Key t → Nat → Prop}

/-- What the rule of a quantity can find wrong by itself, if quantities are as `A` says.
    An objection is about the declaration alone; in particular it is never a circle. -/
inductive Objection (A : Key t → Nat → Prop) (key : Key t) : Error → Prop
  | unknownReference {name : String} (hname : name ∈ (t.get key.id).references)
      (hnone : t.lookup name = none) :
      Objection A key (.unknownReference (t.get key.id).name name)
  | notParameter {name : String} {id : t.Id}
      (hread : .ref name .value ∈ (t.get key.id).exprs) (hfound : t.lookup name = some id)
      (hkind : (t.get id).kind ≠ .parameter) :
      Objection A key (.wrongKind (t.get key.id).name name (t.get id).kind .parameter)
  | notType {name : String} {id : t.Id} (huse : (t.get key.id).UsesAsType name)
      (hfound : t.lookup name = some id) (hkind : (t.get id).kind = .parameter) :
      Objection A key (.wrongKind (t.get key.id).name name .parameter .type)
  | tooNarrow {name : String} {e : Expr} {z : Int}
      (hwidth : (t.get key.id).GivesWidth name e) (hz : Denotes A e z) (hnarrow : z < 1) :
      Objection A key (.invalidWidth name z)
  | tooWide {name : String} {e : Expr} {z : Int}
      (hwidth : (t.get key.id).GivesWidth name e) (hz : Denotes A e z)
      (hwide : (wordLimit : Int) ≤ z) : Objection A key (.widthOverflow name)
  | array {d : Typedef} {base : String} {each count : Nat}
      (hdecl : t.get key.id = .typedef d) (hbase : d.base = some base)
      (heach : TypeHasWidth A base each) (hcount : Denotes A d.width count)
      (hover : wordLimit ≤ each * count) : Objection A key (.widthOverflow d.name)
  | struct {s : StructDef} {fs : List Field} {ws : List Nat}
      (hdecl : t.get key.id = .struct s) (hfields : fs <+: s.fields)
      (hws : List.Forall₂ (FieldHasWidth A) fs ws) (hover : wordLimit ≤ ws.sum) :
      Objection A key (.widthOverflow s.name)
  | outOfRange {p : Parameter} {z : Int} (hdecl : t.get key.id = .parameter p)
      (hz : Denotes A p.value z) (hrange : word? z = none) :
      Objection A key (.invalidParameter p.name z)
  | noValue (hvalue : key.quantity = .value) (hkind : (t.get key.id).kind ≠ .parameter) :
      Objection A key (.wrongKind (t.get key.id).name (t.get key.id).name
        (t.get key.id).kind .parameter)

section Objections

variable {key : Key t} {owner : String} {err : Error}

theorem objection_of_eval {e : Expr} (howner : (t.get key.id).name = owner)
    (he : e ∈ (t.get key.id).exprs) (h : Raises A (eval owner e) err) :
    Objection A key err := by
  subst howner
  match e with
  | .literal n => exact h.elim
  | .ref name .value =>
    rcases raises_bind.mp h with h | ⟨id, hid, h⟩
    · obtain ⟨hnone, rfl⟩ := SymbolTable.resolveRef_eq_error_iff.mp (raises_ofExcept.mp h)
      exact .unknownReference (Decl.mem_references_of_mem_exprs he rfl) hnone
    · rw [yields_ofExcept, SymbolTable.resolveRef_eq_ok_iff] at hid
      split at h
      · rcases raises_bind.mp h with ⟨_, _, h⟩ | ⟨_, _, h⟩ <;> exact h.elim
      · rename_i hkind
        obtain rfl := h
        exact .notParameter he hid hkind
  | .ref name .width =>
    rcases raises_bind.mp h with h | ⟨id, _, h⟩
    · obtain ⟨hnone, rfl⟩ := SymbolTable.resolveRef_eq_error_iff.mp (raises_ofExcept.mp h)
      exact .unknownReference (Decl.mem_references_of_mem_exprs he rfl) hnone
    · rcases raises_bind.mp h with ⟨_, _, h⟩ | ⟨_, _, h⟩ <;> exact h.elim

theorem objection_of_typeWidth {type : String} (howner : (t.get key.id).name = owner)
    (htype : (t.get key.id).UsesAsType type) (h : Raises A (typeWidth owner type) err) :
    Objection A key err := by
  subst howner
  rcases raises_bind.mp h with h | ⟨id, _, _, _, h⟩
  · rcases raises_bind.mp h with h | ⟨id, hid, h⟩
    · obtain ⟨hnone, rfl⟩ := SymbolTable.resolveRef_eq_error_iff.mp (raises_ofExcept.mp h)
      exact .unknownReference htype.mem_references hnone
    · rw [yields_ofExcept, SymbolTable.resolveRef_eq_ok_iff] at hid
      split at h
      · rename_i hkind
        obtain rfl := h
        exact .notType htype hid hkind
      · exact h.elim
  · exact h.elim

theorem objection_of_checkedWidth {name : String} {e : Expr} {z : Int}
    (hwidth : (t.get key.id).GivesWidth name e) (hz : Denotes A e z)
    (h : checkedWidth name z = .error err) : Objection A key err := by
  unfold checkedWidth at h
  split at h
  · rename_i hnarrow
    cases h
    exact .tooNarrow hwidth hz hnarrow
  · cases hword : word? z with
    | some n =>
      simp only [hword] at h
      cases h
    | none =>
      simp only [hword] at h
      cases h
      refine .tooWide hwidth hz ?_
      unfold word? at hword
      split at hword
      · cases hword
      · omega

theorem objection_of_fieldWidth {s : StructDef} (hdecl : t.get key.id = .struct s)
    {f : Field} (hf : f ∈ s.fields) (h : Raises A (fieldWidth s.name f) err) :
    Objection A key err := by
  unfold fieldWidth at h
  cases htype : f.type with
  | logic e =>
    rw [htype] at h
    have hwidth : (t.get key.id).GivesWidth (qualified s.name f.name) e := by
      rw [hdecl]
      exact .field hf htype
    rcases raises_bind.mp h with h | ⟨z, hz, h⟩
    · exact objection_of_eval (by rw [hdecl, Decl.name]) hwidth.mem_exprs h
    · exact objection_of_checkedWidth hwidth (yields_eval.mp hz) (raises_ofExcept.mp h)
  | named type =>
    rw [htype] at h
    refine objection_of_typeWidth (by rw [hdecl, Decl.name]) ?_ h
    rw [hdecl]
    exact .field hf htype

/-- The fields before `rest` have been added up. -/
theorem objection_of_fieldsWidth {s : StructDef} (hdecl : t.get key.id = .struct s)
    {before rest : List Field} {ws : List Nat} (hfields : s.fields = before ++ rest)
    (hws : List.Forall₂ (FieldHasWidth A) before ws)
    (h : Raises A (fieldsWidth s.name ws.sum rest) err) : Objection A key err := by
  induction rest generalizing before ws with
  | nil => exact h.elim
  | cons f rest ih =>
    rcases raises_bind.mp h with h | ⟨w, hw, h⟩
    · exact objection_of_fieldWidth hdecl (by simp [hfields]) h
    · have hmore : s.fields = (before ++ [f]) ++ rest := by simp [hfields]
      have hlonger : List.Forall₂ (FieldHasWidth A) (before ++ [f]) (ws ++ [w]) :=
        List.rel_append hws (.cons (yields_fieldWidth.mp hw) .nil)
      have hsum : (ws ++ [w]).sum = ws.sum + w := by simp
      rcases raises_bind.mp h with h | ⟨sum, hchecked, h⟩
      · rw [raises_ofExcept, checkedSum] at h
        split at h
        · cases h
        · rename_i hover
          cases h
          refine .struct hdecl ⟨rest, hmore.symm⟩ hlonger ?_
          omega
      · rw [yields_ofExcept, checkedSum_eq_ok_iff] at hchecked
        obtain ⟨rfl, _⟩ := hchecked
        rw [← hsum] at h
        exact ih hmore hlonger h

theorem objection_noValue {id : t.Id} {d : Decl} (hd : t.get id = d)
    (hkind : d.kind ≠ .parameter) :
    Objection A ⟨id, .value⟩ (.wrongKind d.name d.name d.kind .parameter) := by
  subst hd
  exact .noValue rfl hkind

/-- **The objections of a rule** are the errors that it raises by itself. -/
theorem raises_rule (h : Raises A (rule key) err) : Objection A key err := by
  obtain ⟨id, quantity⟩ := key
  cases quantity with
  | width =>
    simp only [rule, widthRule] at h
    cases hd : t.get id with
    | parameter p =>
      rw [hd] at h
      rcases raises_bind.mp h with ⟨_, _, h⟩ | ⟨_, _, h⟩ <;> exact h.elim
    | enum e =>
      rw [hd] at h
      have hwidth : (t.get id).GivesWidth e.name e.width := hd ▸ .enum e
      rcases raises_bind.mp h with h | ⟨z, hz, h⟩
      · exact objection_of_eval (by rw [hd, Decl.name]) hwidth.mem_exprs h
      · exact objection_of_checkedWidth hwidth (yields_eval.mp hz) (raises_ofExcept.mp h)
    | typedef d =>
      rw [hd] at h
      have hwidth : (t.get id).GivesWidth d.name d.width := hd ▸ .typedef d
      rcases raises_bind.mp h with h | ⟨z, hz, h⟩
      · exact objection_of_eval (by rw [hd, Decl.name]) hwidth.mem_exprs h
      rcases raises_bind.mp h with h | ⟨count, hcount, h⟩
      · exact objection_of_checkedWidth hwidth (yields_eval.mp hz) (raises_ofExcept.mp h)
      cases hbase : d.base with
      | none =>
        simp only [hbase] at h
        exact h.elim
      | some base =>
        simp only [hbase] at h
        rcases raises_bind.mp h with h | ⟨each, heach, h⟩
        · exact objection_of_typeWidth (by rw [hd, Decl.name]) (hd ▸ .base hbase) h
        · rw [raises_ofExcept, checkedSum] at h
          split at h
          · cases h
          · rename_i hover
            cases h
            rw [yields_ofExcept, checkedWidth_eq_ok_iff] at hcount
            obtain ⟨rfl, _, _⟩ := hcount
            exact .array hd hbase (yields_typeWidth.mp heach) (yields_eval.mp hz)
              (Nat.le_of_not_lt hover)
    | struct s =>
      rw [hd] at h
      exact objection_of_fieldsWidth hd rfl .nil h
  | value =>
    simp only [rule, valueRule] at h
    cases hd : t.get id with
    | parameter p =>
      rw [hd] at h
      rcases raises_bind.mp h with h | ⟨z, hz, h⟩
      · refine objection_of_eval (by rw [hd, Decl.name]) ?_ h
        rw [hd]
        exact List.mem_singleton_self p.value
      · rw [raises_ofExcept, checkedValue] at h
        split at h
        · cases h
        · rename_i hrange
          cases h
          exact .outOfRange hd (yields_eval.mp hz) hrange
    | enum e =>
      rw [hd] at h
      obtain rfl := h
      exact objection_noValue hd (by simp [Decl.kind])
    | typedef d =>
      rw [hd] at h
      obtain rfl := h
      exact objection_noValue hd (by simp [Decl.kind])
    | struct s =>
      rw [hd] at h
      obtain rfl := h
      exact objection_noValue hd (by simp [Decl.kind])

end Objections

end Plan

end WireSchema
