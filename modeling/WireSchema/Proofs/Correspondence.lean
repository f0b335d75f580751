import WireSchema.Proofs.Memo

/-!
# Plans over two tables

A plan sees its table through names only: it looks one up, reads the declaration it finds,
and asks for quantities of it.  So what the resolver finds for a declaration depends on
the declarations that can be reached from it, and not on where they stand.

Two positions of two tables match if they hold the same declaration and every name in it
leads to positions that match again, or to none in both tables (`Matching`).  Plans of
matching positions are `Alike`: they ask alike, fail alike and end alike, which goes
through sequencing.  It follows that matching positions have the same known quantities.
-/

namespace WireSchema

variable {s t : SymbolTable} {R : s.Id → t.Id → Prop}

/-- A relation between positions of two tables that hold the same declaration and lead to
    related positions. -/
structure Matching (R : s.Id → t.Id → Prop) : Prop where
  get_eq : ∀ {a b}, R a b → s.get a = t.get b
  lookup : ∀ {a b}, R a b → ∀ name ∈ (s.get a).references, Option.Rel R (s.lookup name)
    (t.lookup name)

namespace Plan

/-! ### Plans that go the same way -/

/-- Two plans that ask for the same quantities of related declarations, and fail alike or
    end in related results. -/
inductive Alike (R : s.Id → t.Id → Prop) {α β : Type} (S : α → β → Prop) :
    Plan s α → Plan t β → Prop
  | done {a : α} {b : β} (h : S a b) : Alike R S (.done a) (.done b)
  | fail (e : Error) : Alike R S (.fail e) (.fail e)
  | ask {a : s.Id} {b : t.Id} {next : Nat → Plan s α} {next' : Nat → Plan t β} (h : R a b)
      (quantity : Quantity) (hnext : ∀ n, Alike R S (next n) (next' n)) :
      Alike R S (.ask ⟨a, quantity⟩ next) (.ask ⟨b, quantity⟩ next')

section Sequencing

variable {α β γ δ : Type} {S : α → β → Prop} {T : γ → δ → Prop}

/-- Plans that go on alike after related results are alike. -/
theorem Alike.bind {p : Plan s α} {q : Plan t β} {f : α → Plan s γ} {g : β → Plan t δ}
    (h : Alike R S p q) (hnext : ∀ a b, S a b → Alike R T (f a) (g b)) :
    Alike R T (p >>= f) (q >>= g) := by
  induction h with
  | done hab => exact hnext _ _ hab
  | fail e => exact .fail e
  | ask hab quantity _ ih => exact .ask hab quantity ih

/-- `Alike.bind` for results that are the same. -/
theorem Alike.bind_eq {p : Plan s α} {q : Plan t α} {f : α → Plan s γ} {g : α → Plan t δ}
    (h : Alike R Eq p q) (hnext : ∀ a, Alike R T (f a) (g a)) :
    Alike R T (p >>= f) (q >>= g) := by
  apply h.bind
  rintro a _ rfl
  exact hnext a

theorem Alike.pure (a : α) : Alike R Eq (pure a : Plan s α) (pure a : Plan t α) := .done rfl

theorem Alike.ofExcept (x : Except Error α) :
    Alike R Eq (ofExcept x : Plan s α) (ofExcept x : Plan t α) := by
  cases x with
  | ok a => exact .done rfl
  | error e => exact .fail e

theorem Alike.quantity {a : s.Id} {b : t.Id} (h : R a b) (quantity : Quantity) :
    Alike R Eq (.ask ⟨a, quantity⟩ .done) (.ask ⟨b, quantity⟩ .done) :=
  .ask h quantity fun _ => .done rfl

/-- Alike plans come to the same end with the same answers. -/
theorem Alike.follow_eq {answer : Key s → Except Error Nat}
    {answer' : Key t → Except Error Nat}
    (hanswer : ∀ a b, R a b → ∀ quantity, answer ⟨a, quantity⟩ = answer' ⟨b, quantity⟩)
    {p : Plan s α} {q : Plan t α} (h : Alike R Eq p q) :
    follow answer p = follow answer' q := by
  induction h with
  | done hab => rw [hab, follow, follow]
  | fail e => rw [follow, follow]
  | ask hab quantity _ ih =>
    rw [follow, follow, hanswer _ _ hab quantity]
    cases answer' ⟨_, quantity⟩ with
    | ok n => exact ih n
    | error e => rfl

theorem Alike.yields_iff {A : Key s → Nat → Prop} {B : Key t → Nat → Prop}
    (hanswer : ∀ a b, R a b → ∀ quantity n, A ⟨a, quantity⟩ n ↔ B ⟨b, quantity⟩ n)
    {p : Plan s α} {q : Plan t α} {a : α} (h : Alike R Eq p q) :
    Yields A p a ↔ Yields B q a := by
  induction h with
  | done hab => rw [hab, Yields, Yields]
  | fail e => rw [Yields, Yields]
  | ask hab quantity _ ih => simp only [Yields, hanswer _ _ hab quantity, ih]

end Sequencing

/-! ### Plans of matching declarations -/

section Rules

variable (hR : Matching R)

theorem alike_resolveRef {name : String}
    (h : Option.Rel R (s.lookup name) (t.lookup name)) (owner : String) :
    Alike R R (ofExcept (s.resolveRef owner name))
      (ofExcept (t.resolveRef owner name)) := by
  unfold SymbolTable.resolveRef
  generalize s.lookup name = found, t.lookup name = found' at h
  cases h with
  | some hab => exact .done hab
  | none => exact .fail _

include hR

theorem alike_eval {e : Expr}
    (h : ∀ name, e.reference = some name → Option.Rel R (s.lookup name) (t.lookup name))
    (owner : String) :
    Alike R Eq (eval owner e : Plan s Int) (eval owner e : Plan t Int) := by
  match e with
  | .literal k => exact .done rfl
  | .ref name .value =>
    refine (alike_resolveRef (h name rfl) owner).bind fun a b hab => ?_
    rw [hR.get_eq hab]
    split
    · exact (Alike.quantity hab .value).bind_eq fun n => .pure _
    · exact .fail _
  | .ref name .width =>
    refine (alike_resolveRef (h name rfl) owner).bind fun a b hab => ?_
    exact (Alike.quantity hab .width).bind_eq fun n => .pure _

theorem alike_typeRef {type : String} (h : Option.Rel R (s.lookup type) (t.lookup type))
    (owner : String) : Alike R R (typeRef owner type) (typeRef owner type) := by
  refine (alike_resolveRef h owner).bind fun a b hab => ?_
  rw [hR.get_eq hab]
  split
  · exact .fail _
  · exact .done hab

theorem alike_typeWidth {type : String} (h : Option.Rel R (s.lookup type) (t.lookup type))
    (owner : String) :
    Alike R Eq (typeWidth owner type : Plan s Nat) (typeWidth owner type : Plan t Nat) :=
  (alike_typeRef hR h owner).bind fun _ _ hab => .quantity hab .width

theorem alike_fieldWidth {f : Field}
    (h : ∀ name, f.type.reference = some name →
      Option.Rel R (s.lookup name) (t.lookup name)) (owner : String) :
    Alike R Eq (fieldWidth owner f : Plan s Nat) (fieldWidth owner f : Plan t Nat) := by
  unfold fieldWidth
  cases hf : f.type with
  | logic e =>
    rw [hf] at h
    exact (alike_eval hR h owner).bind_eq fun w => .ofExcept _
  | named type =>
    rw [hf] at h
    exact alike_typeWidth hR (h type rfl) owner

theorem alike_fieldsWidth {fs : List Field}
    (h : ∀ f ∈ fs, ∀ name, f.type.reference = some name →
      Option.Rel R (s.lookup name) (t.lookup name)) (owner : String) (total : Nat) :
    Alike R Eq (fieldsWidth owner total fs : Plan s Nat)
      (fieldsWidth owner total fs : Plan t Nat) := by
  induction fs generalizing total with
  | nil => exact .done rfl
  | cons f fs ih =>
    refine (alike_fieldWidth hR (h f List.mem_cons_self) owner).bind_eq fun w => ?_
    refine (Alike.ofExcept (checkedSum owner (total + w))).bind_eq fun sum => ?_
    exact ih (fun g hg => h g (List.mem_cons_of_mem f hg)) sum

/-- The rule of a width reads the declaration and the positions of the names in it, and
    nothing else of the table. -/
theorem alike_widthRule {a : s.Id} {b : t.Id} (hab : R a b) :
    Alike R Eq (widthRule a) (widthRule b) := by
  have hlookup := hR.lookup hab
  unfold widthRule
  rw [← hR.get_eq hab]
  cases hdecl : s.get a with
  | parameter p => exact (Alike.quantity hab .value).bind_eq fun n => .pure _
  | enum e =>
    rw [hdecl] at hlookup
    refine (alike_eval hR (fun name hname => hlookup name ?_) e.name).bind_eq fun w =>
      .ofExcept _
    exact Option.mem_toList.mpr hname
  | typedef d =>
    rw [hdecl] at hlookup
    refine (alike_eval hR (fun name hname => hlookup name ?_) d.name).bind_eq fun w => ?_
    · exact List.mem_append_right _ (Option.mem_toList.mpr hname)
    refine (Alike.ofExcept (checkedWidth d.name w)).bind_eq fun count => ?_
    cases hbase : d.base with
    | none => exact .pure _
    | some base =>
      have hmem : base ∈ (Decl.typedef d).references :=
        List.mem_append_left _ (Option.mem_toList.mpr hbase)
      exact (alike_typeWidth hR (hlookup base hmem) d.name).bind_eq fun each => .ofExcept _
  | struct d =>
    rw [hdecl] at hlookup
    refine alike_fieldsWidth hR (fun f hf name hname => hlookup name ?_) d.name 0
    exact List.mem_filterMap.mpr ⟨f, hf, hname⟩

theorem alike_valueRule {a : s.Id} {b : t.Id} (hab : R a b) :
    Alike R Eq (valueRule a) (valueRule b) := by
  have hlookup := hR.lookup hab
  unfold valueRule
  rw [← hR.get_eq hab]
  cases hdecl : s.get a with
  | parameter p =>
    rw [hdecl] at hlookup
    refine (alike_eval hR (fun name hname => hlookup name ?_) p.name).bind_eq fun v =>
      .ofExcept _
    exact Option.mem_toList.mpr hname
  | enum e => exact .fail _
  | typedef d => exact .fail _
  | struct d => exact .fail _

/-- **The rules of matching declarations are alike.** -/
theorem alike_rule {a : s.Id} {b : t.Id} (hab : R a b) (quantity : Quantity) :
    Alike R Eq (rule ⟨a, quantity⟩) (rule ⟨b, quantity⟩) := by
  cases quantity with
  | value => exact alike_valueRule hR hab
  | width => exact alike_widthRule hR hab

theorem unroll_eq (height : Nat) {a : s.Id} {b : t.Id} (hab : R a b) (quantity : Quantity) :
    unroll height ⟨a, quantity⟩ = unroll height ⟨b, quantity⟩ := by
  induction height generalizing a b quantity with
  | zero => rfl
  | succ height ih =>
    exact (alike_rule hR hab quantity).follow_eq fun a b hab quantity => ih hab quantity

/-- Matching declarations have the same known quantities. -/
theorem known_iff_of_matching {a : s.Id} {b : t.Id} (hab : R a b) (quantity : Quantity)
    (n : Nat) : Known ⟨a, quantity⟩ n ↔ Known ⟨b, quantity⟩ n := by
  simp only [Known, unroll_eq hR _ hab quantity]

/-! ### Items of matching declarations -/

theorem alike_enumerators {a : s.Id} {b : t.Id} (hab : R a b) :
    Alike R Eq (enumerators a) (enumerators b) := by
  unfold enumerators
  rw [← hR.get_eq hab]
  cases s.get a with
  | parameter p => exact .fail _
  | enum e => exact (Alike.quantity hab .width).bind_eq fun width => .ofExcept _
  | typedef d => exact .fail _
  | struct d => exact .fail _

theorem alike_parameter {a : s.Id} {b : t.Id} (hab : R a b) :
    Alike R Eq (parameter a) (parameter b) := by
  unfold parameter
  rw [← hR.get_eq hab]
  exact (Alike.quantity hab .value).bind_eq fun value => .pure _

theorem alike_fieldType {type : FieldType}
    (h : ∀ name, type.reference = some name →
      Option.Rel R (s.lookup name) (t.lookup name)) (owner : String) :
    Alike R Eq (fieldType owner type : Plan s Resolved.FieldType)
      (fieldType owner type : Plan t Resolved.FieldType) := by
  cases type with
  | logic e => exact .done rfl
  | named name =>
    refine (alike_typeRef hR (h name rfl) owner).bind fun a b hab => ?_
    rw [hR.get_eq hab]
    cases (t.get b).kind <;> exact .pure _

theorem alike_fields {fs : List Field}
    (h : ∀ f ∈ fs, ∀ name, f.type.reference = some name →
      Option.Rel R (s.lookup name) (t.lookup name)) (owner : String) :
    Alike R Eq (fields owner fs : Plan s (List Resolved.Field))
      (fields owner fs : Plan t (List Resolved.Field)) := by
  induction fs with
  | nil => exact .done rfl
  | cons f fs ih =>
    have hfield : Alike R Eq (field owner f : Plan s Resolved.Field)
        (field owner f : Plan t Resolved.Field) := by
      refine (alike_fieldType hR (h f List.mem_cons_self) owner).bind_eq fun type => ?_
      exact (alike_fieldWidth hR (h f List.mem_cons_self) owner).bind_eq fun width =>
        .pure _
    refine hfield.bind_eq fun first => ?_
    exact (ih fun g hg => h g (List.mem_cons_of_mem f hg)).bind_eq fun more => .pure _

/-- The item of a declaration is the same wherever the declaration stands. -/
theorem alike_item {a : s.Id} {b : t.Id} (hab : R a b) : Alike R Eq (item a) (item b) := by
  have hlookup := hR.lookup hab
  unfold item
  rw [← hR.get_eq hab]
  cases hdecl : s.get a with
  | parameter p => exact (alike_parameter hR hab).bind_eq fun q => .pure _
  | enum e =>
    refine (Alike.quantity hab .width).bind_eq fun width => ?_
    exact (alike_enumerators hR hab).bind_eq fun values => .pure _
  | typedef d => exact (Alike.quantity hab .width).bind_eq fun width => .pure _
  | struct d =>
    rw [hdecl] at hlookup
    refine (alike_fields hR (fun f hf name hname => hlookup name ?_) d.name).bind_eq
      fun members => ?_
    · exact List.mem_filterMap.mpr ⟨f, hf, hname⟩
    · exact (Alike.quantity hab .width).bind_eq fun width => .pure _

/-- **Matching declarations have the same item.** -/
theorem yields_item_iff {a : s.Id} {b : t.Id} (hab : R a b) {found : Resolved.Item} :
    Yields Known (item a) found ↔ Yields Known (item b) found :=
  (alike_item hR hab).yields_iff fun _ _ hab quantity n =>
    known_iff_of_matching hR hab quantity n

end Rules

end Plan

end WireSchema
