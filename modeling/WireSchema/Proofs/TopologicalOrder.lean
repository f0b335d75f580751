import Mathlib.Data.List.Count
import Mathlib.Data.List.Perm.Basic
import WireSchema.Proofs.Colours

/-!
# The order of declarations

The sorter visits the graph of a table depth first.  A visit that succeeds only adds to
the placed declarations, adds none that is on the path, and keeps them settled: each
stands once, after everything it refers to.  A visit can fail only at a name that is not
declared or at a declaration on the path, and the path leads to whatever is visited, so
the second means a circle.

Together: there is an order exactly if the table is closed and acyclic.
-/

namespace WireSchema

variable {t : SymbolTable}

namespace Sorter

/-! ### What a sorter does in one step -/

section Steps

variable {depth : Nat} {path : List t.Id} {id : t.Id} {s s' : Sorter t} {e : Error}

theorem visit_succ_eq_ok_iff :
    visit (depth + 1) path id s = (.ok (), s') ↔
      (id ∈ s.placed ∧ s = s') ∨
        id ∉ s.placed ∧ id ∉ path ∧ ∃ s₁, s₁.place id = s' ∧
          visitNames (visit depth (id :: path)) (t.get id).name (t.get id).references
            (s.note id) = (.ok (), s₁) := by
  rw [visit]
  by_cases hplaced : id ∈ s.placed
  · simp [hplaced]
  by_cases hpath : id ∈ path
  · simp [hplaced, hpath]
  rcases hout : visitNames (visit depth (id :: path)) (t.get id).name
    (t.get id).references (s.note id) with ⟨_ | _, s₁⟩ <;> simp [hplaced, hpath, hout]

end Steps

/-! ### Placed declarations -/

/-- Declarations, last one first, that stand once each and after everything they refer
    to. -/
def Settled : List t.Id → Prop
  | [] => True
  | id :: placed =>
    id ∉ placed ∧ (∀ name ∈ (t.get id).references, ∃ b ∈ placed, t.lookup name = some b) ∧
      Settled placed

theorem Settled.nodup {placed : List t.Id} (h : Settled placed) : placed.Nodup := by
  induction placed with
  | nil => exact List.nodup_nil
  | cons id placed ih => exact List.nodup_cons.mpr ⟨h.1, ih h.2.2⟩

/-- What a settled declaration refers to stands before it. -/
theorem Settled.before {placed : List t.Id} (h : Settled placed) {a : t.Id}
    (ha : a ∈ placed) {name : String} (hname : name ∈ (t.get a).references) :
    ∃ b, t.lookup name = some b ∧ placed.reverse.idxOf b < placed.reverse.idxOf a := by
  induction placed with
  | nil => cases ha
  | cons id placed ih =>
    obtain ⟨hfresh, hrefs, hrest⟩ := h
    rw [List.reverse_cons]
    rcases List.mem_cons.mp ha with rfl | ha
    · -- the last declaration: all it refers to is in front, and it is not
      obtain ⟨b, hb, hlookup⟩ := hrefs name hname
      refine ⟨b, hlookup, ?_⟩
      have hb' : b ∈ placed.reverse := List.mem_reverse.mpr hb
      have ha' : a ∉ placed.reverse := fun hmem => hfresh (List.mem_reverse.mp hmem)
      rw [List.idxOf_append_of_mem hb', List.idxOf_append_of_notMem ha']
      have hlt := List.idxOf_lt_length_of_mem hb'
      omega
    · obtain ⟨b, hlookup, hlt⟩ := ih hrest ha
      have ha' : a ∈ placed.reverse := List.mem_reverse.mpr ha
      have hb' : b ∈ placed.reverse := by
        have hlength := List.idxOf_lt_length_of_mem ha'
        exact List.idxOf_lt_length_iff.mp (by omega)
      refine ⟨b, hlookup, ?_⟩
      rw [List.idxOf_append_of_mem hb', List.idxOf_append_of_mem ha']
      exact hlt

/-! ### Visits that succeed -/

/-- What a successful visit does: it places more declarations, keeps them settled, and
    places none on the path. -/
structure Advances (path : List t.Id) (s s' : Sorter t) : Prop where
  subset : s.placed ⊆ s'.placed
  settled : Settled s.placed → Settled s'.placed
  notPath : ∀ p ∈ path, p ∈ s'.placed → p ∈ s.placed

theorem Advances.refl (path : List t.Id) (s : Sorter t) : Advances path s s :=
  ⟨List.Subset.refl _, id, fun _ _ h => h⟩

theorem Advances.trans {path : List t.Id} {s₁ s₂ s₃ : Sorter t} (h₁ : Advances path s₁ s₂)
    (h₂ : Advances path s₂ s₃) : Advances path s₁ s₃ where
  subset := List.Subset.trans h₁.subset h₂.subset
  settled := fun h => h₂.settled (h₁.settled h)
  notPath := fun p hp h => h₁.notPath p hp (h₂.notPath p hp h)

@[simp] theorem placed_note (s : Sorter t) (id : t.Id) : (s.note id).placed = s.placed := by
  unfold note
  split <;> rfl

@[simp] theorem placed_place (s : Sorter t) (id : t.Id) :
    (s.place id).placed = id :: s.placed := rfl

/-- Visiting all references of a declaration advances as visiting one does, and places all
    of them. -/
theorem advances_of_visitNames {visit : t.Id → Sorter t → Outcome t} {path : List t.Id}
    {owner : String}
    (hvisit : ∀ id s s', visit id s = (.ok (), s') → Advances path s s' ∧ id ∈ s'.placed)
    {names : List String} {s s' : Sorter t}
    (h : visitNames visit owner names s = (.ok (), s')) :
    Advances path s s' ∧ ∀ name ∈ names, ∃ b ∈ s'.placed, t.lookup name = some b := by
  induction names generalizing s with
  | nil =>
    cases h
    exact ⟨.refl path _, by simp⟩
  | cons name names ih =>
    obtain ⟨b, s₁, hlookup, hb, h⟩ := visitNames_cons_eq_ok_iff.mp h
    obtain ⟨hfirst, hplaced⟩ := hvisit b s s₁ hb
    obtain ⟨hrest, hnames⟩ := ih h
    refine ⟨hfirst.trans hrest, ?_⟩
    intro name' hname'
    rcases List.mem_cons.mp hname' with rfl | hname'
    · exact ⟨b, hrest.subset hplaced, hlookup⟩
    · exact hnames name' hname'

/-- **A successful visit** places the declaration and everything below it. -/
theorem advances_of_visit {depth : Nat} {path : List t.Id} {id : t.Id} {s s' : Sorter t}
    (h : visit depth path id s = (.ok (), s')) : Advances path s s' ∧ id ∈ s'.placed := by
  induction depth generalizing path id s s' with
  | zero => cases h
  | succ depth ih =>
    rcases visit_succ_eq_ok_iff.mp h with ⟨hplaced, rfl⟩ | ⟨hplaced, hpath, s₁, rfl, hbelow⟩
    · exact ⟨.refl path s, hplaced⟩
    · obtain ⟨hadv, hrefs⟩ := advances_of_visitNames (fun _ _ _ => ih) hbelow
      -- the visited declaration is on the path of the visits below it, so none of them
      -- has placed it
      have hfresh : id ∉ s₁.placed := fun hmem => hplaced (by
        simpa using hadv.notPath id List.mem_cons_self hmem)
      refine ⟨⟨?_, ?_, ?_⟩, List.mem_cons_self⟩
      · exact List.Subset.trans (by simpa using hadv.subset)
          (List.subset_cons_self id s₁.placed)
      · intro hs
        exact ⟨hfresh, hrefs, hadv.settled (by simpa using hs)⟩
      · intro p hp hmem
        rcases List.mem_cons.mp hmem with rfl | hmem
        · exact (hpath hp).elim
        · simpa using hadv.notPath p (List.mem_cons_of_mem id hp) hmem

/-- Visiting declarations places all of them. -/
theorem advances_of_visitAll {ids : List t.Id} {s s' : Sorter t}
    (h : visitAll ids s = (.ok (), s')) :
    Advances [] s s' ∧ ∀ id ∈ ids, id ∈ s'.placed := by
  induction ids generalizing s with
  | nil =>
    cases h
    exact ⟨.refl [] _, by simp⟩
  | cons id ids ih =>
    obtain ⟨s₁, hid, h⟩ := visitEach_cons_eq_ok_iff.mp h
    obtain ⟨hfirst, hplaced⟩ := advances_of_visit hid
    obtain ⟨hrest, hids⟩ := ih h
    refine ⟨hfirst.trans hrest, ?_⟩
    intro id' hid'
    rcases List.mem_cons.mp hid' with rfl | hid'
    · exact hrest.subset hplaced
    · exact hids id' hid'

/-! ### Visits that cannot fail -/

section Complete

variable (hclosed : t.Closed) (hacyclic : t.Acyclic)

include hclosed

theorem visitNames_ok {visit : t.Id → Sorter t → Outcome t} {a : t.Id}
    (hvisit : ∀ b s, t.Refers a b → ∃ s', visit b s = (.ok (), s')) {names : List String}
    (hnames : names ⊆ (t.get a).references) (owner : String) (s : Sorter t) :
    ∃ s', visitNames visit owner names s = (.ok (), s') := by
  induction names generalizing s with
  | nil => exact ⟨s, rfl⟩
  | cons name names ih =>
    rw [List.cons_subset] at hnames
    obtain ⟨b, hlookup⟩ := hclosed.lookup hnames.1
    obtain ⟨s₁, hfirst⟩ := hvisit b s ⟨name, hnames.1, hlookup⟩
    obtain ⟨s₂, hrest⟩ := ih hnames.2 s₁
    exact ⟨s₂, visitNames_cons_eq_ok_iff.mpr ⟨b, s₁, hlookup, hfirst, hrest⟩⟩

include hacyclic

/-- **A visit succeeds** in a closed table without circles: everything on the path leads
    to the visited declaration, so the declaration is not on the path. -/
theorem visit_ok {depth : Nat} {path : List t.Id} {id : t.Id} (hnodup : path.Nodup)
    (hroom : t.size < depth + path.length)
    (hleads : ∀ p ∈ path, Relation.TransGen t.Refers p id) (s : Sorter t) :
    ∃ s', visit depth path id s = (.ok (), s') := by
  induction depth generalizing path id s with
  | zero =>
    have hlength := SymbolTable.length_le_size hnodup
    omega
  | succ depth ih =>
    have hpath : id ∉ path := fun hmem => hacyclic id (hleads id hmem)
    by_cases hplaced : id ∈ s.placed
    · exact ⟨s, visit_succ_eq_ok_iff.mpr (Or.inl ⟨hplaced, rfl⟩)⟩
    · have hbelow : ∀ b s, t.Refers id b →
          ∃ s', visit depth (id :: path) b s = (.ok (), s') := by
        intro b s hb
        refine ih (List.nodup_cons.mpr ⟨hpath, hnodup⟩)
          (by rw [List.length_cons]; omega) ?_ s
        intro p hp
        rcases List.mem_cons.mp hp with rfl | hp
        · exact Relation.TransGen.single hb
        · exact (hleads p hp).tail hb
      obtain ⟨s₁, hs₁⟩ := visitNames_ok hclosed hbelow (List.Subset.refl _)
        (t.get id).name (s.note id)
      exact ⟨s₁.place id, visit_succ_eq_ok_iff.mpr (Or.inr ⟨hplaced, hpath, s₁, rfl, hs₁⟩)⟩

theorem visitAll_ok (ids : List t.Id) (s : Sorter t) :
    ∃ s', visitAll ids s = (.ok (), s') := by
  induction ids generalizing s with
  | nil => exact ⟨s, rfl⟩
  | cons id ids ih =>
    obtain ⟨s₁, hfirst⟩ : ∃ s', visit (t.size + 1) [] id s = (.ok (), s') :=
      visit_ok hclosed hacyclic List.nodup_nil (by simp) (by simp) s
    obtain ⟨s₂, hrest⟩ := ih s₁
    exact ⟨s₂, visitEach_cons_eq_ok_iff.mpr ⟨s₁, hfirst, hrest⟩⟩

end Complete

end Sorter

/-! ### Orders -/

namespace SymbolTable

/-- An order of the declarations: each stands in it once, after everything it refers to. -/
structure IsOrder (t : SymbolTable) (order : List t.Id) : Prop where
  count_eq_one : ∀ id, order.count id = 1
  before : ∀ a, ∀ name ∈ (t.get a).references, ∃ b, t.lookup name = some b ∧
    order.idxOf b < order.idxOf a

theorem order_eq_ok_iff {selection : Selection} {order : List t.Id} :
    (t.order selection).1 = .ok order ↔
      ∃ s, Sorter.visitAll t.ids { selection := selection } = (.ok (), s) ∧
        s.placed.reverse = order := by
  rw [order_eq]
  rcases Sorter.visitAll t.ids { selection := selection } with ⟨_ | _, s⟩ <;>
    simp [Sorter.result]

/-- What the sorter gives is an order of the table. -/
theorem isOrder_of_order {selection : Selection} {order : List t.Id}
    (h : (t.order selection).1 = .ok order) : t.IsOrder order := by
  obtain ⟨s, hvisit, rfl⟩ := order_eq_ok_iff.mp h
  obtain ⟨hadv, hall⟩ := Sorter.advances_of_visitAll hvisit
  have hsettled : Sorter.Settled s.placed := hadv.settled trivial
  have hmem : ∀ id, id ∈ s.placed := fun id => hall id (mem_ids id)
  constructor
  · intro id
    exact List.count_eq_one_of_mem (List.nodup_reverse.mpr hsettled.nodup)
      (List.mem_reverse.mpr (hmem id))
  · intro a name hname
    exact hsettled.before (hmem a) hname

theorem IsOrder.nodup {order : List t.Id} (h : t.IsOrder order) : order.Nodup :=
  List.nodup_iff_count_le_one.mpr fun id => Nat.le_of_eq (h.count_eq_one id)

theorem IsOrder.mem {order : List t.Id} (h : t.IsOrder order) (id : t.Id) : id ∈ order :=
  List.count_pos_iff.mp (by rw [h.count_eq_one id]; omega)

theorem IsOrder.perm_ids {order : List t.Id} (h : t.IsOrder order) : order.Perm t.ids := by
  rw [List.perm_ext_iff_of_nodup h.nodup nodup_ids]
  intro id
  exact ⟨fun _ => mem_ids id, fun _ => h.mem id⟩

/-- An order is the declarations of the table, rearranged. -/
theorem IsOrder.perm_decls {order : List t.Id} (h : t.IsOrder order) :
    (order.map t.get).Perm t.decls := by
  have hget : t.ids.map t.get = t.decls := List.map_get_finRange t.decls
  rw [← hget]
  exact h.perm_ids.map t.get

theorem IsOrder.closed {order : List t.Id} (h : t.IsOrder order) : t.Closed := by
  intro a name hname
  obtain ⟨b, hlookup, _⟩ := h.before a name hname
  exact ⟨b, name_of_lookup hlookup⟩

theorem IsOrder.idxOf_lt {order : List t.Id} (h : t.IsOrder order) {a b : t.Id}
    (hab : t.Refers a b) : order.idxOf b < order.idxOf a := by
  obtain ⟨name, hname, hlookup⟩ := hab
  obtain ⟨b', hlookup', hlt⟩ := h.before a name hname
  rw [hlookup] at hlookup'
  cases hlookup'
  exact hlt

/-- A table that has an order has no circle. -/
theorem IsOrder.acyclic {order : List t.Id} (h : t.IsOrder order) : t.Acyclic := by
  intro a hcycle
  -- positions go down along references, so they cannot come back
  have hdown : ∀ b, Relation.TransGen t.Refers a b → order.idxOf b < order.idxOf a := by
    intro b hab
    induction hab with
    | single hab => exact h.idxOf_lt hab
    | tail _ hbc ih => exact Nat.lt_trans (h.idxOf_lt hbc) ih
  exact Nat.lt_irrefl _ (hdown a hcycle)

theorem order_of_closed_acyclic (hclosed : t.Closed) (hacyclic : t.Acyclic)
    (selection : Selection) : ∃ order, (t.order selection).1 = .ok order := by
  obtain ⟨s, hs⟩ := Sorter.visitAll_ok hclosed hacyclic t.ids { selection := selection }
  exact ⟨s.placed.reverse, order_eq_ok_iff.mpr ⟨s, hs, rfl⟩⟩

/-- **The sorter is a topological sort, correct and complete.**  It finds an order exactly
    if every name that is referred to is declared and no declaration refers to itself,
    directly or through others; and what it finds is an order. -/
theorem order_correct (t : SymbolTable) (selection : Selection) :
    ((∃ order, (t.order selection).1 = .ok order) ↔ t.Closed ∧ t.Acyclic) ∧
      ∀ order, (t.order selection).1 = .ok order → t.IsOrder order := by
  refine ⟨⟨?_, ?_⟩, fun order => isOrder_of_order⟩
  · rintro ⟨order, h⟩
    have horder := isOrder_of_order h
    exact ⟨horder.closed, horder.acyclic⟩
  · rintro ⟨hclosed, hacyclic⟩
    exact order_of_closed_acyclic hclosed hacyclic selection

/-- In `laneTable` every declaration refers to later ones only, so the order turns it
    around. -/
theorem laneTable_order :
    (laneTable.order .all).1 =
        .ok [⟨3, by decide⟩, ⟨2, by decide⟩, ⟨1, by decide⟩, ⟨0, by decide⟩] ∧
      laneTable.IsOrder [⟨3, by decide⟩, ⟨2, by decide⟩, ⟨1, by decide⟩, ⟨0, by decide⟩] ∧
      laneTable.Closed ∧ laneTable.Acyclic := by
  have horder : (laneTable.order .all).1 =
      .ok [⟨3, by decide⟩, ⟨2, by decide⟩, ⟨1, by decide⟩, ⟨0, by decide⟩] := by
    decide
  have hcorrect := order_correct laneTable .all
  exact ⟨horder, hcorrect.2 _ horder, hcorrect.1.mp ⟨_, horder⟩⟩

end SymbolTable

end WireSchema
