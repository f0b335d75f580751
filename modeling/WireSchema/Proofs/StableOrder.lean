import Mathlib.Data.Finset.Max
import Mathlib.Data.Fintype.Basic
import Mathlib.Data.List.Sort
import WireSchema.Proofs.Registration
import WireSchema.Proofs.TopologicalOrder

/-!
# The order is stable

The sorter visits the declarations in the order of the table, and each visit places
whatever can be reached from the visited declaration and is not placed yet.  So every
declaration is placed by the visit to the first declaration from which it can be reached,
its `root`, and the order goes by roots (`pairwise_root_of_order`).

Everything else that one expects of a stable order follows from that.  A declaration
overtakes another only if it is needed there; a table that refers backwards only is left
as it is; and the order of a table, declared anew, is its own order.
-/

namespace WireSchema

variable {t : SymbolTable}

namespace SymbolTable

/-! ### Roots -/

open Classical in
/-- The first declaration from which `x` can be reached, through references or at once. -/
noncomputable def root (t : SymbolTable) (x : t.Id) : t.Id :=
  (Finset.univ.filter fun z => Relation.ReflTransGen t.Refers z x).min'
    ⟨x, by simp [Relation.ReflTransGen.refl]⟩

theorem root_reaches (x : t.Id) : Relation.ReflTransGen t.Refers (t.root x) x := by
  classical
  have hmem := Finset.min'_mem (Finset.univ.filter fun z =>
      Relation.ReflTransGen t.Refers z x) ⟨x, by simp [Relation.ReflTransGen.refl]⟩
  exact (Finset.mem_filter.mp hmem).2

theorem root_le {x z : t.Id} (h : Relation.ReflTransGen t.Refers z x) : t.root x ≤ z := by
  classical
  exact Finset.min'_le _ _ (Finset.mem_filter.mpr ⟨Finset.mem_univ z, h⟩)

end SymbolTable

/-! ### What a visit places -/

namespace Sorter

/-- More declarations are placed, all of which can be reached from `origin`. -/
def PlacesFrom (origin : t.Id) (s s' : Sorter t) : Prop :=
  ∃ new, s'.placed = new ++ s.placed ∧ ∀ x ∈ new, Relation.ReflTransGen t.Refers origin x

theorem PlacesFrom.refl (origin : t.Id) (s : Sorter t) : PlacesFrom origin s s :=
  ⟨[], rfl, by simp⟩

theorem PlacesFrom.trans {origin : t.Id} {s₁ s₂ s₃ : Sorter t}
    (h₁ : PlacesFrom origin s₁ s₂) (h₂ : PlacesFrom origin s₂ s₃) :
    PlacesFrom origin s₁ s₃ := by
  obtain ⟨new₁, hplaced₁, hnew₁⟩ := h₁
  obtain ⟨new₂, hplaced₂, hnew₂⟩ := h₂
  refine ⟨new₂ ++ new₁, by rw [hplaced₂, hplaced₁, List.append_assoc], ?_⟩
  intro x hx
  rcases List.mem_append.mp hx with hx | hx
  · exact hnew₂ x hx
  · exact hnew₁ x hx

theorem placesFrom_of_visitNames {visit : t.Id → Sorter t → Outcome t} {a : t.Id}
    (hvisit : ∀ b s s', visit b s = (.ok (), s') → PlacesFrom b s s') {names : List String}
    (hnames : names ⊆ (t.get a).references) {owner : String} {s s' : Sorter t}
    (h : visitNames visit owner names s = (.ok (), s')) : PlacesFrom a s s' := by
  induction names generalizing s with
  | nil =>
    cases h
    exact .refl a _
  | cons name names ih =>
    rw [List.cons_subset] at hnames
    obtain ⟨b, s₁, hlookup, hb, h⟩ := visitNames_cons_eq_ok_iff.mp h
    have hab : t.Refers a b := ⟨name, hnames.1, hlookup⟩
    obtain ⟨new, hplaced, hnew⟩ := hvisit b s s₁ hb
    have hfirst : PlacesFrom a s s₁ := ⟨new, hplaced, fun x hx => (hnew x hx).head hab⟩
    exact hfirst.trans (ih hnames.2 h)

theorem placesFrom_of_visit {depth : Nat} {path : List t.Id} {id : t.Id} {s s' : Sorter t}
    (h : visit depth path id s = (.ok (), s')) : PlacesFrom id s s' := by
  induction depth generalizing path id s s' with
  | zero => cases h
  | succ depth ih =>
    rcases visit_succ_eq_ok_iff.mp h with ⟨_, rfl⟩ | ⟨_, _, s₁, rfl, hbelow⟩
    · exact .refl id s
    · obtain ⟨new, hplaced, hnew⟩ :=
        placesFrom_of_visitNames (fun _ _ _ => ih) (List.Subset.refl _) hbelow
      refine ⟨id :: new, by rw [placed_place, hplaced, placed_note, List.cons_append], ?_⟩
      intro x hx
      rcases List.mem_cons.mp hx with rfl | hx
      · exact .refl
      · exact hnew x hx

/-- Settled declarations are closed under references. -/
theorem Settled.mem_of_reaches {placed : List t.Id} (h : Settled placed) {a x : t.Id}
    (ha : a ∈ placed) (hax : Relation.ReflTransGen t.Refers a x) : x ∈ placed := by
  induction hax with
  | refl => exact ha
  | @tail b c _ hbc ih =>
    obtain ⟨name, hname, hlookup⟩ := hbc
    obtain ⟨c', hc', hlt⟩ := h.before ih hname
    obtain rfl : c' = c := Option.some.inj (hc'.symm.trans hlookup)
    have hlength := List.idxOf_lt_length_of_mem (List.mem_reverse.mpr ih)
    exact List.mem_reverse.mp (List.idxOf_lt_length_iff.mp (by omega))

/-! ### From one visit to the next -/

/-- What has been placed when the declarations in `visited` have been visited: all that
    can be reached from them, sorted by roots. -/
structure Stage (visited : List t.Id) (s : Sorter t) : Prop where
  settled : Settled s.placed
  placed : ∀ z ∈ visited, z ∈ s.placed
  reached : ∀ x ∈ s.placed, ∃ z ∈ visited, Relation.ReflTransGen t.Refers z x
  sorted : s.placed.Pairwise fun later earlier => t.root earlier ≤ t.root later

theorem stage_start (selection : Selection) :
    Stage [] ({ selection := selection } : Sorter t) where
  settled := trivial
  placed := by simp
  reached := by simp
  sorted := .nil

/-- What the visit of the next declaration places has this declaration for its root, so it
    comes behind all that was placed before. -/
theorem Stage.visit {visited rest : List t.Id} {id : t.Id} {s s' : Sorter t}
    (h : Stage visited s) (hids : t.ids = visited ++ id :: rest)
    (hvisit : visit (t.size + 1) [] id s = (.ok (), s')) :
    Stage (visited ++ [id]) s' := by
  obtain ⟨hadvances, hid⟩ := advances_of_visit hvisit
  obtain ⟨new, hplaced, hnew⟩ := placesFrom_of_visit hvisit
  have hsettled := hadvances.settled h.settled
  have hsorted : (visited ++ id :: rest).Pairwise (· < ·) :=
    hids ▸ List.pairwise_lt_finRange _
  have hvisited : ∀ z, z < id ↔ z ∈ visited := by
    rw [List.pairwise_append, List.pairwise_cons] at hsorted
    intro z
    constructor
    · intro hz
      have hmem : z ∈ visited ++ id :: rest := hids ▸ SymbolTable.mem_ids z
      rcases List.mem_append.mp hmem with hmem | hmem
      · exact hmem
      rcases List.mem_cons.mp hmem with rfl | hmem
      · exact (lt_irrefl z hz).elim
      · exact (lt_asymm hz (hsorted.2.1.1 z hmem)).elim
    · intro hz
      exact hsorted.2.2 z hz id List.mem_cons_self
  -- what is placed now cannot be reached from an earlier declaration, or else it would
  -- have been placed before
  have hroot : ∀ x ∈ new, t.root x = id := by
    intro x hx
    refine le_antisymm (SymbolTable.root_le (hnew x hx)) (not_lt.mp fun hlt => ?_)
    have hold : x ∈ s.placed := h.settled.mem_of_reaches
      (h.placed _ ((hvisited _).mp hlt)) (SymbolTable.root_reaches x)
    have hnodup := hsettled.nodup
    rw [hplaced] at hnodup
    exact List.disjoint_of_nodup_append hnodup hx hold
  have hbefore : ∀ x ∈ s.placed, t.root x ≤ id := by
    intro x hx
    obtain ⟨z, hz, hzx⟩ := h.reached x hx
    exact (SymbolTable.root_le hzx).trans ((hvisited z).mpr hz).le
  refine ⟨hsettled, ?_, ?_, ?_⟩
  · intro z hz
    rcases List.mem_append.mp hz with hz | hz
    · exact hadvances.subset (h.placed z hz)
    · rw [List.mem_singleton.mp hz]
      exact hid
  · intro x hx
    rw [hplaced] at hx
    rcases List.mem_append.mp hx with hx | hx
    · exact ⟨id, by simp, hnew x hx⟩
    · obtain ⟨z, hz, hzx⟩ := h.reached x hx
      exact ⟨z, List.mem_append_left _ hz, hzx⟩
  · rw [hplaced, List.pairwise_append]
    refine ⟨?_, h.sorted, ?_⟩
    · apply List.pairwise_of_forall_mem_list
      intro x hx y hy
      rw [hroot x hx, hroot y hy]
    · intro x hx y hy
      rw [hroot x hx]
      exact hbefore y hy

/-- When all declarations have been visited, all are placed, sorted by roots. -/
theorem Stage.visitAll {visited ids : List t.Id} {s s' : Sorter t} (h : Stage visited s)
    (hids : t.ids = visited ++ ids) (hvisit : visitAll ids s = (.ok (), s')) :
    Stage t.ids s' := by
  induction ids generalizing visited s with
  | nil =>
    cases hvisit
    rw [hids, List.append_nil]
    exact h
  | cons id ids ih =>
    obtain ⟨s₁, hid, hvisit⟩ := visitEach_cons_eq_ok_iff.mp hvisit
    exact ih (h.visit hids hid) (by rw [hids, List.append_assoc, List.singleton_append])
      hvisit

end Sorter

namespace SymbolTable

/-- **The order goes by roots.** -/
theorem pairwise_root_of_order {selection : Selection} {order : List t.Id}
    (h : (t.order selection).1 = .ok order) :
    order.Pairwise fun a b => t.root a ≤ t.root b := by
  obtain ⟨s, hvisit, rfl⟩ := order_eq_ok_iff.mp h
  have hstage := (Sorter.stage_start selection).visitAll (List.nil_append _).symm hvisit
  exact List.pairwise_reverse.mpr hstage.sorted

theorem le_of_reaches (hback : ∀ a b, t.Refers a b → b < a) {z x : t.Id}
    (h : Relation.ReflTransGen t.Refers z x) : x ≤ z := by
  induction h with
  | refl => exact le_rfl
  | tail _ hbc ih => exact (hback _ _ hbc).le.trans ih

section Stability

variable {selection : Selection} {order : List t.Id} (h : (t.order selection).1 = .ok order)

include h

theorem idxOf_lt_of_root_lt {x y : t.Id} (hroot : t.root x < t.root y) :
    order.idxOf x < order.idxOf y := by
  have horder := isOrder_of_order h
  by_contra hnot
  refine absurd hroot (not_lt.mpr ?_)
  rcases (not_lt.mp hnot).lt_or_eq with hlt | heq
  · have hx := List.idxOf_lt_length_of_mem (horder.mem x)
    have hy := List.idxOf_lt_length_of_mem (horder.mem y)
    have hle := List.pairwise_iff_getElem.mp (pairwise_root_of_order h) _ _ hy hx hlt
    rwa [List.getElem_idxOf, List.getElem_idxOf] at hle
  · rw [(List.idxOf_inj (horder.mem y)).mp heq]

/-- A declaration overtakes an earlier one only if it is needed there or before. -/
theorem needed_of_overtakes {x y : t.Id} (hyx : y < x)
    (hover : order.idxOf x < order.idxOf y) :
    ∃ z ≤ y, Relation.TransGen t.Refers z x := by
  have hroot : t.root x ≤ t.root y := by
    by_contra hnot
    exact Nat.lt_asymm hover (idxOf_lt_of_root_lt h (not_le.mp hnot))
  have hle : t.root x ≤ y := hroot.trans (root_le .refl)
  refine ⟨t.root x, hle, ?_⟩
  rcases Relation.reflTransGen_iff_eq_or_transGen.mp (root_reaches x) with heq | hneeds
  · exact absurd (heq ▸ hle) (not_le.mpr hyx)
  · exact hneeds

/-- Where all references go backwards, every declaration is its own root. -/
theorem order_eq_ids (hback : ∀ a b, t.Refers a b → b < a) : order = t.ids := by
  have hroot : ∀ x, t.root x = x :=
    fun x => le_antisymm (root_le .refl) (le_of_reaches hback (root_reaches x))
  have hsorted := pairwise_root_of_order h
  simp only [hroot] at hsorted
  have hids : t.ids.Pairwise (· ≤ ·) := (List.pairwise_lt_finRange _).imp fun hlt => hlt.le
  exact (isOrder_of_order h).perm_ids.eq_of_pairwise' hsorted hids

end Stability

theorem order_of_backward (hclosed : t.Closed) (hback : ∀ a b, t.Refers a b → b < a)
    (selection : Selection) : (t.order selection).1 = .ok t.ids := by
  have hacyclic : t.Acyclic := by
    intro a hcycle
    obtain ⟨b, hab, hba⟩ := Relation.TransGen.tail'_iff.mp hcycle
    exact absurd (hback b a hba) (not_lt.mpr (le_of_reaches hback hab))
  obtain ⟨order, horder⟩ := order_of_closed_acyclic hclosed hacyclic selection
  rw [horder, order_eq_ids horder hback]

/-! ### Declaring once more -/

/-- A table that comes from declaring one thing after another; what was refused on the way
    is not in it. -/
def IsFrozen (t : SymbolTable) : Prop := ∃ ds, (declareAll empty ds).1 = t

theorem IsFrozen.wellFormed (h : t.IsFrozen) :
    t.Registered ∧ ∀ d ∈ t.decls, d.WellFormed := by
  obtain ⟨ds, rfl⟩ := h
  exact wellFormed_of_declareAll registered_empty (by simp)

section Rearranged

variable {order : List t.Id}

def rearranged (t : SymbolTable) (order : List t.Id) : SymbolTable where
  decls := order.map t.get

def source (order : List t.Id) (a : (t.rearranged order).Id) : t.Id :=
  order.get (a.cast (List.length_map _))

theorem get_rearranged (a : (t.rearranged order).Id) :
    (t.rearranged order).get a = t.get (source order a) :=
  List.getElem_map t.get

theorem idxOf_source (hnodup : order.Nodup) (a : (t.rearranged order).Id) :
    order.idxOf (source order a) = a.val :=
  hnodup.idxOf_getElem _ _

/-- In a table that is declared in order, everything refers backwards. -/
theorem refers_rearranged (horder : t.IsOrder order)
    (hnodup : (t.decls.map Decl.name).Nodup) (a b : (t.rearranged order).Id)
    (h : (t.rearranged order).Refers a b) : b < a := by
  obtain ⟨name, hname, hlookup⟩ := h
  have hb := name_of_lookup hlookup
  rw [get_rearranged] at hname hb
  obtain ⟨c, hc, hlt⟩ := horder.before (source order a) name hname
  -- `c` and the origin of `b` have one name
  have hsame : c = source order b := eq_of_name_eq hnodup (by rw [name_of_lookup hc, hb])
  rw [hsame, idxOf_source horder.nodup, idxOf_source horder.nodup] at hlt
  exact hlt

theorem closed_rearranged (horder : t.IsOrder order) : (t.rearranged order).Closed := by
  intro a name hname
  rw [get_rearranged] at hname
  obtain ⟨c, hc⟩ := horder.closed _ name hname
  have hmem : t.get c ∈ (t.rearranged order).decls := List.mem_map_of_mem (horder.mem c)
  obtain ⟨b, hb⟩ := List.mem_iff_get.mp hmem
  exact ⟨b, by rw [← hc]; exact congrArg Decl.name hb⟩

theorem declareAll_rearranged (horder : t.IsOrder order) (hfrozen : t.IsFrozen) :
    declareAll empty (order.map t.get) = (t.rearranged order, []) := by
  obtain ⟨hregistered, hformed⟩ := hfrozen.wellFormed
  have hperm := horder.perm_decls
  have hnone : (declareAll empty (order.map t.get)).2 = [] := by
    rw [declareAll_errors_eq_nil_iff]
    refine ⟨fun d hd => hformed d (hperm.mem_iff.mp hd), ?_, fun _ _ => rfl⟩
    exact (hperm.map Decl.name).nodup_iff.mpr hregistered.nodup
  have hdecls := (declareAll_spec registered_empty hnone).1
  exact Prod.ext (SymbolTable.ext hdecls) hnone

end Rearranged

/-- **The order is stable.**  A declaration with an earlier root stands before one with a
    later root.  So a declaration overtakes an earlier one only if some declaration up to
    that one depends on it; a table in which everything refers to earlier declarations is
    left as it is; and if the declarations are declared in the order found, which nothing
    forbids, the order is found again. -/
theorem order_stable (t : SymbolTable) (selection : Selection) (order : List t.Id)
    (h : (t.order selection).1 = .ok order) :
    (∀ x y, t.root x < t.root y → order.idxOf x < order.idxOf y) ∧
    (∀ x y, y < x → order.idxOf x < order.idxOf y →
        ∃ z ≤ y, Relation.TransGen t.Refers z x) ∧
    ((∀ a b, t.Refers a b → b < a) → order = t.ids) ∧
    (t.IsFrozen → ∃ t', declareAll {} (order.map t.get) = (t', []) ∧
      (∀ ds, ofDecls ds = .ok t → ofDecls (order.map t.get) = .ok t') ∧
      ∀ again, ∃ order', (t'.order again).1 = .ok order' ∧
        order'.map t'.get = order.map t.get) := by
  have horder := isOrder_of_order h
  refine ⟨fun x y => idxOf_lt_of_root_lt h, fun x y => needed_of_overtakes h,
      order_eq_ids h, ?_⟩
  intro hfrozen
  refine ⟨t.rearranged order, declareAll_rearranged horder hfrozen, ?_, ?_⟩
  · intro ds hds
    obtain ⟨hdecls, hregistrable⟩ := ofDecls_eq_ok_iff.mp hds
    rw [← hdecls] at hregistrable
    exact ofDecls_eq_ok_iff.mpr ⟨rfl, hregistrable.perm horder.perm_decls.symm⟩
  · intro again
    have hback := refers_rearranged horder hfrozen.wellFormed.1.nodup
    refine ⟨_, order_of_backward (closed_rearranged horder) hback again, ?_⟩
    exact List.map_get_finRange (order.map t.get)

/-- A struct that holds a struct and an enum, the struct, a bit vector, the enum, and a
    parameter that the inner struct uses. -/
def unitTable : SymbolTable where
  decls :=
    [.struct { name := "top_t", fields :=
       [{ name := "a", type := .named "mid_t" },
        { name := "b", type := .named "kind_e" }] },
     .struct { name := "mid_t", fields :=
       [{ name := "a", type := .logic (.ref "W" .value) }] },
     .typedef { name := "lone_t", base := none, width := .literal 1 },
     .enum { name := "kind_e", width := .literal 1, values := [{ name := "A" }] },
     .parameter { name := "W", value := .literal 5 }]

/-- The parameter and the enum overtake the bit vector, since the first struct needs them;
    declared in that order, they stay where they are. -/
theorem unitTable_stable :
    (unitTable.order .off).1 =
        .ok [⟨4, by decide⟩, ⟨1, by decide⟩, ⟨3, by decide⟩, ⟨0, by decide⟩,
          ⟨2, by decide⟩] ∧
      (∃ z : unitTable.Id, z ≤ ⟨2, by decide⟩ ∧
        Relation.TransGen unitTable.Refers z ⟨4, by decide⟩) ∧
      ∃ (t' : SymbolTable) (order : List t'.Id), (t'.order .all).1 = .ok order ∧
        (order.map t'.get).map Decl.name = ["W", "mid_t", "kind_e", "top_t", "lone_t"] := by
  have horder : (unitTable.order .off).1 =
      .ok [⟨4, by decide⟩, ⟨1, by decide⟩, ⟨3, by decide⟩, ⟨0, by decide⟩,
          ⟨2, by decide⟩] := by decide
  obtain ⟨_, hneeded, _, hagain⟩ := order_stable unitTable .off _ horder
  refine ⟨horder, hneeded ⟨4, by decide⟩ ⟨2, by decide⟩ (by decide) (by decide), ?_⟩
  obtain ⟨t', _, _, hsame⟩ := hagain ⟨unitTable.decls, by rfl⟩
  obtain ⟨order', horder', hmap⟩ := hsame .all
  exact ⟨t', order', horder', by rw [hmap]; rfl⟩

end SymbolTable

end WireSchema
