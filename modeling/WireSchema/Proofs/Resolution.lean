import WireSchema.Proofs.Memo
import WireSchema.Proofs.Rules
import WireSchema.Proofs.TopologicalOrder
import WireSchema.Resolution

/-!
# How packages are put together

A package is made in three steps: the declarations are registered, each is resolved to an
item, and the items are put in an order of the declarations.  An item is its declaration
with the known quantities (`ItemResolves`), and a package has the item of every
declaration once (`assembled_of_resolve`).
-/

namespace WireSchema

namespace Journal

variable {ε α β : Type} {x : Journal ε α} {f : α → Journal ε β}

theorem outcome_bind_eq_ok_iff {b : β} :
    (x >>= f).outcome = .ok b ↔ ∃ a, x.outcome = .ok a ∧ (f a).outcome = .ok b := by
  change (x.andThen f).outcome = _ ↔ _
  unfold andThen
  cases x.outcome <;> simp

theorem outcome_bind_eq_error_iff {e : ε} :
    (x >>= f).outcome = .error e ↔ x.outcome = .error e ∨ ∃ a, x.outcome = .ok a ∧
      (f a).outcome = .error e := by
  change (x.andThen f).outcome = _ ↔ _
  unfold andThen
  cases x.outcome <;> simp

end Journal

/-! ### Items -/

/-- The kind and the name of the type that a field holds; bits have none. -/
def Resolved.FieldType.target? : Resolved.FieldType → Option (Kind × String)
  | .logic => none
  | .enum name => some (.enum, name)
  | .typedef name => some (.typedef, name)
  | .struct name => some (.struct, name)

namespace Plan

variable {t : SymbolTable} {A : Key t → Nat → Prop} {id : t.Id} {item : Resolved.Item}

/-- A word fits in `width` bits; the widths from which on nothing is compared are wider
    than a word. -/
theorem fits_word_iff {n width : Nat} (hn : n < wordLimit) :
    fits n width = true ↔ n < 2 ^ width := by
  simp only [fits, Bool.and_eq_true, Bool.or_eq_true, decide_eq_true_eq, Int.ofNat_lt]
  constructor
  · rintro ⟨_, hwide | hlt⟩
    · have hpow : wordLimit ≤ 2 ^ width := Nat.pow_le_pow_right (by omega) (by omega)
      omega
    · exact hlt
  · intro hlt
    exact ⟨by omega, Or.inr hlt⟩

theorem lt_of_fits {z : Int} {width n : Nat} (hfits : fits z width = true)
    (hn : word? z = some n) : n < 2 ^ width := by
  obtain ⟨rfl, hlimit⟩ := word?_eq_some_iff.mp hn
  exact (fits_word_iff hlimit).mp hfits

/-- Enumerators that are given values keep their names, and the values fit in the
    width. -/
theorem assignFrom_eq_ok {enum : String} {width : Nat} {previous : Option Int}
    {vs : List Enumerator} {ws : List Resolved.Enumerator}
    (h : assignFrom enum width previous vs = .ok ws) :
    List.Forall₂ (fun v w => w.name = v.name ∧ w.docs = v.docs ∧
        w.value < 2 ^ width) vs ws := by
  induction vs generalizing previous ws with
  | nil =>
    cases h
    exact .nil
  | cons v vs ih =>
    by_cases hfits : fits (enumeratorValue previous v) width = true
    · simp only [assignFrom, if_pos hfits] at h
      cases hn : word? (enumeratorValue previous v) with
      | none => simp [hn] at h
      | some n =>
        cases hmore : assignFrom enum width (some (enumeratorValue previous v)) vs with
        | error e => simp [hn, hmore] at h
        | ok more =>
          simp only [hn, hmore] at h
          cases h
          exact .cons ⟨rfl, rfl, lt_of_fits hfits hn⟩ (ih hmore)
    · simp [assignFrom, if_neg hfits] at h

def TypeResolves (t : SymbolTable) : FieldType → Resolved.FieldType → Prop
  | .logic _, type => type.target? = none
  | .named name, type =>
    ∃ id, t.lookup name = some id ∧ (t.get id).kind ≠ .parameter ∧
      type.target? = some ((t.get id).kind, name)

structure FieldResolves (A : Key t → Nat → Prop) (f : Field) (g : Resolved.Field) :
    Prop where
  name : g.name = f.name
  docs : g.docs = f.docs
  type : TypeResolves t f.type g.type
  width : FieldHasWidth A f g.width

theorem yields_fieldType {owner : String} {type : FieldType} {found : Resolved.FieldType}
    (h : Yields A (fieldType owner type) found) : TypeResolves t type found := by
  cases type with
  | logic e =>
    cases h
    rfl
  | named name =>
    simp only [fieldType, yields_bind, yields_typeRef] at h
    obtain ⟨id, ⟨hlookup, hkind⟩, h⟩ := h
    refine ⟨id, hlookup, hkind, ?_⟩
    cases hk : (t.get id).kind with
    | parameter => exact (hkind hk).elim
    | enum =>
      rw [hk] at h
      cases h
      rfl
    | typedef =>
      rw [hk] at h
      cases h
      rfl
    | struct =>
      rw [hk] at h
      cases h
      rfl

theorem yields_field {owner : String} {f : Field} {g : Resolved.Field}
    (h : Yields A (field owner f) g) : FieldResolves A f g := by
  simp only [field, yields_bind, yields_fieldWidth, yields_pure] at h
  obtain ⟨type, htype, width, hwidth, rfl⟩ := h
  exact ⟨rfl, rfl, yields_fieldType htype, hwidth⟩

theorem yields_fields {owner : String} {fs : List Field} {gs : List Resolved.Field}
    (h : Yields A (fields owner fs) gs) : List.Forall₂ (FieldResolves A) fs gs := by
  induction fs generalizing gs with
  | nil =>
    cases h
    exact .nil
  | cons f fs ih =>
    simp only [fields, yields_bind, yields_pure] at h
    obtain ⟨g, hg, rest, hrest, rfl⟩ := h
    exact .cons (yields_field hg) (ih hrest)

/-- The item of a declaration, if quantities are as `A` says. -/
def ItemResolves (A : Key t → Nat → Prop) (id : t.Id) : Resolved.Item → Prop
  | .parameter q =>
    ∃ p, t.get id = .parameter p ∧ A ⟨id, .value⟩ q.value ∧ q.name = p.name ∧
      q.docs = p.docs ∧ q.width = bitWidth q.value ∧ q.countWidth = countWidth q.value ∧
      q.widthOne = 1
  | .enum q =>
    ∃ e, t.get id = .enum e ∧ A ⟨id, .width⟩ q.width ∧ q.name = e.name ∧ q.docs = e.docs ∧
      ∃ w, A ⟨id, .width⟩ w ∧ assignFrom e.name w none e.values = .ok q.values
  | .typedef q =>
    ∃ d, t.get id = .typedef d ∧ A ⟨id, .width⟩ q.width ∧ q.name = d.name ∧
      q.docs = d.docs ∧ q.base = d.base
  | .struct q =>
    ∃ s, t.get id = .struct s ∧ A ⟨id, .width⟩ q.width ∧ q.name = s.name ∧ q.docs = s.docs ∧
      List.Forall₂ (FieldResolves A) s.fields q.fields

/-- The plan of an item ends only in the item of its declaration. -/
theorem itemResolves_of_yields (h : Yields A (Plan.item id) item) :
    ItemResolves A id item := by
  unfold Plan.item at h
  cases hdecl : t.get id with
  | parameter p =>
    simp only [hdecl, parameter, yields_bind, valueOf, yields_ask_done, yields_pure,
        Decl.name, Decl.docs] at h
    obtain ⟨_, ⟨v, hv, rfl⟩, rfl⟩ := h
    exact ⟨p, hdecl, hv, rfl, rfl, rfl, rfl, rfl⟩
  | enum e =>
    simp only [hdecl, enumerators, yields_bind, widthOf, yields_ask_done, yields_ofExcept,
        yields_pure] at h
    obtain ⟨w, hw, values, hvalues, rfl⟩ := h
    exact ⟨e, hdecl, hw, rfl, rfl, hvalues⟩
  | typedef d =>
    simp only [hdecl, yields_bind, widthOf, yields_ask_done, yields_pure] at h
    obtain ⟨w, hw, rfl⟩ := h
    exact ⟨d, hdecl, hw, rfl, rfl, rfl⟩
  | struct s =>
    simp only [hdecl, yields_bind, widthOf, yields_ask_done, yields_pure] at h
    obtain ⟨gs, hgs, w, hw, rfl⟩ := h
    exact ⟨s, hdecl, hw, rfl, rfl, yields_fields hgs⟩

/-- An item has the width that the resolver gives for its declaration. -/
theorem ItemResolves.known_width (h : ItemResolves Known id item) :
    Known ⟨id, .width⟩ item.width := by
  cases item with
  | parameter q =>
    obtain ⟨p, hdecl, hvalue, _, _, hwidth, _⟩ := h
    exact known_iff.mpr ((yields_width_parameter hdecl).mpr ⟨q.value, hvalue, hwidth⟩)
  | enum q =>
    obtain ⟨_, _, hwidth, _⟩ := h
    exact hwidth
  | typedef q =>
    obtain ⟨_, _, hwidth, _⟩ := h
    exact hwidth
  | struct q =>
    obtain ⟨_, _, hwidth, _⟩ := h
    exact hwidth

theorem yields_items_iff {ids : List t.Id} {items : List Resolved.Item} :
    Yields A (Plan.items ids) items ↔
      List.Forall₂ (fun id item => Yields A (Plan.item id) item) ids items := by
  induction ids generalizing items with
  | nil => simp [Plan.items, Yields, eq_comm]
  | cons id ids ih =>
    simp only [Plan.items, yields_bind, yields_pure, ih]
    constructor
    · rintro ⟨first, hfirst, rest, hrest, rfl⟩
      exact .cons hfirst hrest
    · rintro (_ | ⟨hfirst, hrest⟩)
      exact ⟨_, hfirst, _, hrest, rfl⟩

end Plan

open Plan

/-! ### Packages -/

namespace SymbolTable

variable {t : SymbolTable}

/-- The items of a table are resolved if the plan of each ends. -/
theorem resolveItems_eq_ok_iff {selection : Selection} {items : List Resolved.Item} :
    (t.resolveItems selection).outcome = .ok items ↔
      List.Forall₂ (fun id item => Yields Known (Plan.item id) item) t.ids items := by
  have hidle := (Resolver.Reached.fresh (t := t) selection).idle
  rw [← yields_items_iff, ← Resolver.run_eq_ok_iff hidle]
  unfold resolveItems
  cases hout : (({ selection := selection } : Resolver t).run (Plan.items t.ids)).1 <;>
    simp [hout, Except.mapError]

/-- The item of each declaration stands at the position of the declaration. -/
theorem exists_itemAt {selection : Selection} {items : List Resolved.Item}
    (h : (t.resolveItems selection).outcome = .ok items) :
    ∃ itemAt : t.Id → Resolved.Item,
      (∀ id, Yields Known (Plan.item id) (itemAt id)) ∧
        ∀ id, items[id.val]? = some (itemAt id) := by
  have hitems := resolveItems_eq_ok_iff.mp h
  have hlength : items.length = t.decls.length := by
    rw [← hitems.length_eq, ids, List.length_finRange]
  refine ⟨fun id => items.get (id.cast hlength.symm), fun id => ?_, fun id => ?_⟩
  · have hget := hitems.get (i := id.val) (by simp [ids]) (by omega)
    simpa [ids] using hget
  · simp

theorem sort_outcome_eq_ok_iff {selection : Selection} {order : List t.Id} :
    (t.sort selection).outcome = .ok order ↔ (t.order selection).1 = .ok order := by
  unfold sort
  cases hout : (t.order selection).1 <;> simp [Except.mapError, hout]

end SymbolTable

/-- Items that are those of all declarations of a table, in an order of the table. -/
structure Assembled (t : SymbolTable) (items : List Resolved.Item) (order : List t.Id)
    (itemAt : t.Id → Resolved.Item) : Prop where
  registered : t.Registered
  isOrder : t.IsOrder order
  items_eq : items = order.map itemAt
  resolves : ∀ id, ItemResolves Known id (itemAt id)

/-- A package that is resolved has the items of all declarations, in an order of the
    table, and is otherwise as it was asked for. -/
theorem exists_order_of_resolve {name source : String} {schema : Schema}
    {tracing : Tracing} {p : Package}
    (h : (Package.resolve name source schema tracing).outcome = .ok p) :
    ∃ t : SymbolTable, SymbolTable.ofDecls schema.decls = .ok t ∧
      ∃ (order : List t.Id) (itemAt : t.Id → Resolved.Item),
        t.IsOrder order ∧ (∀ id, Yields Known (Plan.item id) (itemAt id)) ∧
          p = { name := name, source := source,
                docSummary := schema.docSummary, docVerbose := schema.docVerbose,
                items := order.map itemAt } := by
  unfold Package.resolve at h
  simp only [Journal.outcome_bind_eq_ok_iff] at h
  obtain ⟨t, ht, _, _, items, hitems, order, horder, _, _, h⟩ := h
  obtain ⟨itemAt, hyields, hget⟩ := SymbolTable.exists_itemAt hitems
  have hisOrder := SymbolTable.isOrder_of_order
    (SymbolTable.sort_outcome_eq_ok_iff.mp horder)
  refine ⟨t, ht, order, itemAt, hisOrder, hyields, ?_⟩
  cases h
  simp only [hget, List.filterMap_eq_map']

theorem assembled_of_resolve {name source : String} {schema : Schema} {tracing : Tracing}
    {p : Package} (h : (Package.resolve name source schema tracing).outcome = .ok p) :
    ∃ t : SymbolTable, t.decls = schema.decls ∧
      ∃ order itemAt, Assembled t p.items order itemAt := by
  obtain ⟨t, ht, order, itemAt, hisOrder, hyields, rfl⟩ := exists_order_of_resolve h
  obtain ⟨hdecls, hregistered⟩ := SymbolTable.registered_of_ofDecls ht
  exact ⟨t, hdecls, order, itemAt, hregistered, hisOrder, rfl, fun id =>
      itemResolves_of_yields (hyields id)⟩

end WireSchema
