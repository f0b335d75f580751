import Mathlib.Order.Bounds.Basic
import WireSchema.Proofs.Literals
import WireSchema.Proofs.Memo
import WireSchema.Proofs.Rules

/-!
# Widths and values of the language

`SymbolTable.Value` and `SymbolTable.Width` say what the value of a parameter and the
width of a declaration are, by rules over the table alone: no order of evaluation, no
memory, and exact arithmetic with the two bounds that the language has.  A declaration in
a circle has neither, because a derivation is finite.

The known quantities are exactly these (`known_iff_holds`), and so are those that the
resolver computes.
-/

namespace WireSchema

namespace SymbolTable

/-! ### The rules of the language -/

mutual

inductive Value (t : SymbolTable) : t.Id → Nat → Prop
  | parameter {id : t.Id} {p : Parameter} {v : Nat} (hdecl : t.get id = .parameter p)
      (hv : Evaluates t p.value v) (hword : v < 2 ^ 64) : Value t id v

inductive Width (t : SymbolTable) : t.Id → Nat → Prop
  | parameter {id : t.Id} {p : Parameter} {v w : Nat} (hdecl : t.get id = .parameter p)
      (hv : Value t id v) (hleast : IsLeast {w | 1 ≤ w ∧ v < 2 ^ w} w) : Width t id w
  | enum {id : t.Id} {e : EnumDef} {w : Nat} (hdecl : t.get id = .enum e)
      (hw : Evaluates t e.width w) (hpos : 1 ≤ w) : Width t id w
  | logic {id : t.Id} {d : Typedef} {w : Nat} (hdecl : t.get id = .typedef d)
      (hbase : d.base = none) (hw : Evaluates t d.width w) (hpos : 1 ≤ w) : Width t id w
  | array {id : t.Id} {d : Typedef} {base : String} {each count : Nat}
      (hdecl : t.get id = .typedef d) (hbase : d.base = some base)
      (heach : TypeWidth t base each) (hcount : Evaluates t d.width count)
      (hpos : 1 ≤ count) (hword : each * count < 2 ^ 64) : Width t id (each * count)
  | struct {id : t.Id} {s : StructDef} {w : Nat} (hdecl : t.get id = .struct s)
      (hw : FieldsWidth t s.fields w) (hword : w < 2 ^ 64) : Width t id w

/-- The declaration with a name is a type, not a parameter, and has a width. -/
inductive TypeWidth (t : SymbolTable) : String → Nat → Prop
  | named {name : String} {id : t.Id} {w : Nat} (hlookup : t.lookup name = some id)
      (htype : (t.get id).kind ≠ .parameter) (hw : Width t id w) : TypeWidth t name w

inductive Evaluates (t : SymbolTable) : Expr → Int → Prop
  | literal (k : Int) : Evaluates t (.literal k) k
  | value {name : String} {id : t.Id} {v : Nat} (hlookup : t.lookup name = some id)
      (hv : Value t id v) : Evaluates t (.ref name .value) v
  | width {name : String} {id : t.Id} {w : Nat} (hlookup : t.lookup name = some id)
      (hw : Width t id w) : Evaluates t (.ref name .width) w

inductive FieldWidth (t : SymbolTable) : Field → Nat → Prop
  | logic {f : Field} {e : Expr} {w : Nat} (htype : f.type = .logic e)
      (hw : Evaluates t e w) (hpos : 1 ≤ w) : FieldWidth t f w
  | named {f : Field} {type : String} {w : Nat} (htype : f.type = .named type)
      (hw : TypeWidth t type w) : FieldWidth t f w

inductive FieldsWidth (t : SymbolTable) : List Field → Nat → Prop
  | nil : FieldsWidth t [] 0
  | cons {f : Field} {fs : List Field} {w total : Nat} (hw : FieldWidth t f w)
      (hrest : FieldsWidth t fs total) : FieldsWidth t (f :: fs) (w + total)

end

variable {t : SymbolTable}

/-- The rules, as answers to the questions of plans. -/
def Holds (t : SymbolTable) (key : Key t) (n : Nat) : Prop :=
  match key.quantity with
  | .value => t.Value key.id n
  | .width => t.Width key.id n

/-! ### Known quantities follow the rules -/

open Plan

theorem evaluates_of_denotes {e : Expr} {z : Int} (h : Denotes t.Holds e z) :
    t.Evaluates e z := by
  match e with
  | .literal k =>
    obtain rfl : z = k := h
    exact .literal z
  | .ref name .value =>
    obtain ⟨id, v, hlookup, _, hv, rfl⟩ := h
    exact .value hlookup hv
  | .ref name .width =>
    obtain ⟨id, w, hlookup, hw, rfl⟩ := h
    exact .width hlookup hw

theorem typeWidth_of_holds {name : String} {w : Nat} (h : TypeHasWidth t.Holds name w) :
    t.TypeWidth name w := by
  obtain ⟨id, hlookup, htype, hw⟩ := h
  exact .named hlookup htype hw

theorem fieldWidth_of_holds {f : Field} {w : Nat} (h : FieldHasWidth t.Holds f w) :
    t.FieldWidth f w := by
  unfold FieldHasWidth at h
  cases htype : f.type with
  | logic e =>
    rw [htype] at h
    exact .logic htype (evaluates_of_denotes h.1) h.2.1
  | named type =>
    rw [htype] at h
    exact .named htype (typeWidth_of_holds h)

theorem fieldsWidth_of_holds {fs : List Field} {ws : List Nat}
    (h : List.Forall₂ (FieldHasWidth t.Holds) fs ws) : t.FieldsWidth fs ws.sum := by
  induction h with
  | nil => exact .nil
  | cons hw _ ih =>
    rw [List.sum_cons]
    exact .cons (fieldWidth_of_holds hw) ih

/-- A quantity that a rule yields from quantities that hold, holds. -/
theorem holds_of_yields {key : Key t} {n : Nat} (h : Yields t.Holds (rule key) n) :
    t.Holds key n := by
  obtain ⟨id, quantity⟩ := key
  cases quantity with
  | value =>
    obtain ⟨p, hdecl⟩ := yields_value_kind h
    obtain ⟨hv, hword⟩ := (yields_value_parameter hdecl).mp h
    exact Value.parameter hdecl (evaluates_of_denotes hv) hword
  | width =>
    cases hdecl : t.get id with
    | parameter p =>
      obtain ⟨v, hv, rfl⟩ := (yields_width_parameter hdecl).mp h
      exact Width.parameter hdecl hv (isLeast_bitWidth v)
    | enum e =>
      obtain ⟨hw, hpos, _⟩ := (yields_width_enum hdecl).mp h
      exact Width.enum hdecl (evaluates_of_denotes hw) hpos
    | typedef d =>
      cases hbase : d.base with
      | none =>
        obtain ⟨hw, hpos, _⟩ := (yields_width_logic hdecl hbase).mp h
        exact Width.logic hdecl hbase (evaluates_of_denotes hw) hpos
      | some base =>
        obtain ⟨count, hcount, hpos, _, each, heach, rfl, hword⟩ :=
          (yields_width_array hdecl hbase).mp h
        exact Width.array hdecl hbase (typeWidth_of_holds heach)
          (evaluates_of_denotes hcount) hpos hword
    | struct s =>
      obtain ⟨ws, hws, rfl, hword⟩ := (yields_width_struct hdecl).mp h
      exact Width.struct hdecl (fieldsWidth_of_holds hws) hword

theorem holds_of_known {key : Key t} {n : Nat} (h : Known key n) : t.Holds key n := by
  obtain ⟨height, h⟩ := h
  induction height generalizing key n with
  | zero => cases h
  | succ height ih =>
    exact holds_of_yields ((unroll_succ_eq_ok_iff.mp h).mono fun _ _ hk => ih hk)

/-! ### What follows from the rules is known -/

/-- Every known quantity is a word. -/
theorem lt_wordLimit_of_known {key : Key t} {n : Nat} (h : Known key n) :
    n < wordLimit := by
  obtain ⟨height, h⟩ := h
  induction height generalizing key n with
  | zero => cases h
  | succ height ih =>
    have hy := unroll_succ_eq_ok_iff.mp h
    obtain ⟨id, quantity⟩ := key
    cases quantity with
    | value =>
      obtain ⟨p, hdecl⟩ := yields_value_kind hy
      exact ((yields_value_parameter hdecl).mp hy).2
    | width =>
      cases hdecl : t.get id with
      | parameter p =>
        obtain ⟨v, hv, rfl⟩ := (yields_width_parameter hdecl).mp hy
        exact bitWidth_lt_wordLimit (ih hv)
      | enum e => exact ((yields_width_enum hdecl).mp hy).2.2
      | typedef d =>
        cases hbase : d.base with
        | none => exact ((yields_width_logic hdecl hbase).mp hy).2.2
        | some base =>
          obtain ⟨_, _, _, _, _, _, _, hword⟩ := (yields_width_array hdecl hbase).mp hy
          exact hword
      | struct s =>
        obtain ⟨_, _, _, hword⟩ := (yields_width_struct hdecl).mp hy
        exact hword

/-- The value of an expression that is not negative is a word, although literals are only
    signed words. -/
theorem lt_wordLimit_of_denotes {e : Expr} {n : Nat} (hsigned : e.Signed)
    (h : Denotes (t := t) Known e n) : n < wordLimit := by
  match e with
  | .literal k =>
    have hk := lt_wordLimit_of_isSigned64 hsigned
    have heq : (n : Int) = k := h
    omega
  | .ref name .value =>
    obtain ⟨id, v, _, _, hv, heq⟩ := h
    have hlt := lt_wordLimit_of_known hv
    omega
  | .ref name .width =>
    obtain ⟨id, w, _, hw, heq⟩ := h
    have hlt := lt_wordLimit_of_known hw
    omega

theorem kind_of_value {id : t.Id} {v : Nat} (h : t.Value id v) :
    (t.get id).kind = .parameter := by
  cases h with
  | parameter hdecl _ _ =>
    rw [hdecl]
    rfl

-- one case for each rule of the language, by recursion on the derivation
mutual

theorem known_of_value (ht : t.Signed) :
    ∀ {id : t.Id} {v : Nat}, t.Value id v → Known ⟨id, .value⟩ v
  | _, _, .parameter hdecl hv hword =>
    known_iff.mpr ((yields_value_parameter hdecl).mpr ⟨denotes_of_evaluates ht hv, hword⟩)

/-- A width that the rules give is computed.  The induction is on the derivation. -/
theorem known_of_width (ht : t.Signed) :
    ∀ {id : t.Id} {w : Nat}, t.Width id w → Known ⟨id, .width⟩ w
  | _, _, @Width.parameter _ _ _ v _ hdecl hv hleast => by
    rw [known_iff]
    refine (yields_width_parameter hdecl).mpr ⟨v, known_of_value ht hv, ?_⟩
    exact IsLeast.unique hleast (isLeast_bitWidth v)
  | id, _, @Width.enum _ _ e _ hdecl hw hpos => by
    have hknown := denotes_of_evaluates ht hw
    have hsigned : e.width.Signed := ht.get id e.width (by simp [hdecl, Decl.exprs])
    rw [known_iff]
    exact (yields_width_enum hdecl).mpr
      ⟨hknown, hpos, lt_wordLimit_of_denotes hsigned hknown⟩
  | id, _, @Width.logic _ _ d _ hdecl hbase hw hpos => by
    have hknown := denotes_of_evaluates ht hw
    have hsigned : d.width.Signed := ht.get id d.width (by simp [hdecl, Decl.exprs])
    rw [known_iff]
    exact (yields_width_logic hdecl hbase).mpr
      ⟨hknown, hpos, lt_wordLimit_of_denotes hsigned hknown⟩
  | id, _, @Width.array _ _ d _ each count hdecl hbase heach hcount hpos hword => by
    have hknown := denotes_of_evaluates ht hcount
    have hsigned : d.width.Signed := ht.get id d.width (by simp [hdecl, Decl.exprs])
    rw [known_iff]
    exact (yields_width_array hdecl hbase).mpr
      ⟨count, hknown, hpos, lt_wordLimit_of_denotes hsigned hknown, each,
        typeHasWidth_of_typeWidth ht heach, rfl, hword⟩
  | id, _, @Width.struct _ _ s _ hdecl hw hword => by
    have hsigned : ∀ f ∈ s.fields, ∀ e, f.type = .logic e → e.Signed := by
      intro f hf e he
      apply ht.get id e
      simp only [hdecl, Decl.exprs, List.mem_filterMap]
      exact ⟨f, hf, by simp [Field.expr?, he]⟩
    obtain ⟨ws, hws, hsum⟩ := fieldsHaveWidth_of_fieldsWidth ht hsigned hw
    rw [known_iff]
    exact (yields_width_struct hdecl).mpr ⟨ws, hws, hsum, hword⟩

theorem typeHasWidth_of_typeWidth (ht : t.Signed) :
    ∀ {name : String} {w : Nat}, t.TypeWidth name w → TypeHasWidth (t := t) Known name w
  | _, _, .named hlookup htype hw => ⟨_, hlookup, htype, known_of_width ht hw⟩

theorem denotes_of_evaluates (ht : t.Signed) :
    ∀ {e : Expr} {z : Int}, t.Evaluates e z → Denotes (t := t) Known e z
  | _, _, .literal _ => rfl
  | _, _, .value hlookup hv => ⟨_, _, hlookup, kind_of_value hv, known_of_value ht hv, rfl⟩
  | _, _, .width hlookup hw => ⟨_, _, hlookup, known_of_width ht hw, rfl⟩

theorem fieldHasWidth_of_fieldWidth (ht : t.Signed) :
    ∀ {f : Field} {w : Nat}, (∀ e, f.type = .logic e → e.Signed) → t.FieldWidth f w →
      FieldHasWidth (t := t) Known f w
  | _, _, hsigned, @FieldWidth.logic _ _ e _ htype hw hpos => by
    have hknown := denotes_of_evaluates ht hw
    unfold FieldHasWidth
    rw [htype]
    exact ⟨hknown, hpos, lt_wordLimit_of_denotes (hsigned e htype) hknown⟩
  | _, _, _, .named htype hw => by
    have hknown := typeHasWidth_of_typeWidth ht hw
    unfold FieldHasWidth
    rw [htype]
    exact hknown

theorem fieldsHaveWidth_of_fieldsWidth (ht : t.Signed) :
    ∀ {fs : List Field} {total : Nat}, (∀ f ∈ fs, ∀ e, f.type = .logic e → e.Signed) →
      t.FieldsWidth fs total →
      ∃ ws, List.Forall₂ (FieldHasWidth (t := t) Known) fs ws ∧ total = ws.sum
  | _, _, _, .nil => ⟨[], .nil, rfl⟩
  | f :: _, _, hsigned, @FieldsWidth.cons _ _ _ w _ hw hrest => by
    have hfirst := fieldHasWidth_of_fieldWidth ht (hsigned f List.mem_cons_self) hw
    obtain ⟨ws, hws, rfl⟩ := fieldsHaveWidth_of_fieldsWidth ht
      (fun g hg => hsigned g (List.mem_cons_of_mem f hg)) hrest
    exact ⟨w :: ws, .cons hfirst hws, by rw [List.sum_cons]⟩

end

/-- What can be computed is what the rules say. -/
theorem known_iff_holds (ht : t.Signed) {key : Key t} {n : Nat} :
    Known key n ↔ t.Holds key n := by
  constructor
  · exact holds_of_known
  · intro h
    obtain ⟨id, quantity⟩ := key
    cases quantity with
    | value => exact known_of_value ht h
    | width => exact known_of_width ht h

end SymbolTable

/-! ### The resolver -/

open SymbolTable in
/-- **The resolver computes the widths and values of the language, and nothing else.**
    The integers of a schema are 64-bit signed integers.  Over every such table a fresh
    resolver finds a width exactly if the rules give the declaration that width, and a
    value exactly if they give it that value.  So it neither misses a quantity for fear of
    a circle nor lets an overflow pass. -/
theorem resolver_exact :
    (∀ (text : String) (schema : Schema) (t : SymbolTable),
      (Schema.ofText text).outcome = .ok schema → ofDecls schema.decls = .ok t →
        t.Signed) ∧
    ∀ t : SymbolTable, t.Signed → ∀ (selection : Selection) (id : t.Id) (n : Nat),
      ((({ selection := selection } : Resolver t).run (Plan.widthOf id)).1 = .ok n ↔
          t.Width id n) ∧
        ((({ selection := selection } : Resolver t).run (Plan.valueOf id)).1 = .ok n ↔
            t.Value id n) := by
  constructor
  · intro text schema t hschema htable d hd
    rw [(registered_of_ofDecls htable).1] at hd
    exact Schema.signed_of_ofText hschema d hd
  · intro t ht selection id n
    have hidle := (Resolver.Reached.fresh (t := t) selection).idle
    rw [Resolver.run_eq_ok_iff hidle, Resolver.run_eq_ok_iff hidle, Plan.widthOf,
        Plan.valueOf, Plan.yields_ask_done, Plan.yields_ask_done]
    exact ⟨known_iff_holds ht, known_iff_holds ht⟩

/-- The widths and the value of the table are computed as the rules derive them. -/
theorem laneTable_exact :
    laneTable.Signed ∧
      (({} : Resolver laneTable).run (Plan.widthOf ⟨0, by decide⟩)).1 = .ok 16 ∧
      laneTable.Width ⟨0, by decide⟩ 16 ∧
      (({} : Resolver laneTable).run (Plan.valueOf ⟨3, by decide⟩)).1 = .ok 4 ∧
      laneTable.Value ⟨3, by decide⟩ 4 := by
  have hsigned : laneTable.Signed := by decide
  have hwidth : (({} : Resolver laneTable).run (Plan.widthOf ⟨0, by decide⟩)).1 =
      .ok 16 := by decide
  have hvalue : (({} : Resolver laneTable).run (Plan.valueOf ⟨3, by decide⟩)).1 =
      .ok 4 := by decide
  have hexact := resolver_exact.2 laneTable hsigned .off
  exact ⟨hsigned, hwidth, (hexact _ 16).1.mp hwidth, hvalue, (hexact _ 4).2.mp hvalue⟩

end WireSchema
