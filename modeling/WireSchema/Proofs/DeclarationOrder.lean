import WireSchema.Proofs.Correspondence
import WireSchema.Proofs.CycleAgreement
import WireSchema.Proofs.Packages
import WireSchema.Proofs.Registration

/-!
# The order of declarations does not matter

Registration, the resolver and the sorter all go through the declarations in the order in
which they are written, and stop or report accordingly.  Whether a package comes out does
not depend on that order, and neither do its items: only their places do.

Rearranged tables have the same declarations under the same names, so equal declarations
match (`matching_of_perm`).  What is left is that a package comes out exactly if the
declarations can be registered and each of them has an item.
-/

namespace WireSchema

open Plan

variable {s t : SymbolTable}

/-! ### Rearranged tables -/

theorem exists_get_eq {d : Decl} (h : d ∈ t.decls) : ∃ id : t.Id, t.get id = d :=
  List.mem_iff_get.mp h

theorem get_mem (id : t.Id) : t.get id ∈ t.decls := List.get_mem t.decls id

/-- In tables with the same declarations, each name leads to the same declaration. -/
theorem matching_of_perm (hperm : s.decls.Perm t.decls)
    (hnodup : (t.decls.map Decl.name).Nodup) :
    Matching fun (a : s.Id) (b : t.Id) => s.get a = t.get b where
  get_eq := fun hab => hab
  lookup := by
    intro _ _ _ name _
    cases hs : s.lookup name with
    | none =>
      have hnone : t.lookup name = none := by
        rw [SymbolTable.lookup_eq_none_iff_notMem] at hs ⊢
        intro hmem
        exact hs ((hperm.map Decl.name).mem_iff.mpr hmem)
      rw [hnone]
      exact .none
    | some a =>
      have hname := SymbolTable.name_of_lookup hs
      have hmem : s.get a ∈ t.decls := hperm.mem_iff.mp (get_mem a)
      obtain ⟨b₀, hb₀⟩ := exists_get_eq hmem
      obtain ⟨b, hb⟩ := SymbolTable.exists_lookup_iff.mpr ⟨b₀, by rw [hb₀, hname]⟩
      rw [hb]
      -- names are distinct in `t`, so the two declarations called `name` are one
      refine .some (List.inj_on_of_nodup_map hnodup hmem (get_mem b) ?_)
      rw [hname, SymbolTable.name_of_lookup hb]

/-! ### When a package comes out -/

/-- A package comes out exactly if the declarations can be registered and each of them has
    an item. -/
theorem resolve_succeeds_iff {name source : String} {schema : Schema}
    {tracing : Tracing} :
    (∃ p, (Package.resolve name source schema tracing).outcome = .ok p) ↔
      ∃ t, SymbolTable.ofDecls schema.decls = .ok t ∧
        ∀ id : t.Id, ∃ item, Yields Known (Plan.item id) item := by
  constructor
  · rintro ⟨p, hp⟩
    obtain ⟨t, ht, _, itemAt, _, hyields, _⟩ := exists_order_of_resolve hp
    exact ⟨t, ht, fun id => ⟨itemAt id, hyields id⟩⟩
  · rintro ⟨t, ht, hitems⟩
    cases hout : (Package.resolve name source schema tracing).outcome with
    | ok p => exact ⟨p, rfl⟩
    | error errors =>
      rcases resolve_outcome_error hout with hregister | ⟨t', ht', hresolve⟩
      · rw [ht] at hregister
        cases hregister
      · rw [ht] at ht'
        cases ht'
        obtain ⟨items, hall⟩ := exists_forall₂_iff.mpr fun id (_ : id ∈ t.ids) => hitems id
        rw [SymbolTable.resolveItems_eq_ok_iff.mpr hall] at hresolve
        cases hresolve

/-- Whether a schema resolves does not depend on the order of its declarations. -/
theorem resolve_succeeds_of_perm {name source : String} {schema other : Schema}
    {tracing : Tracing} (hperm : schema.decls.Perm other.decls)
    (h : ∃ p, (Package.resolve name source schema tracing).outcome = .ok p) :
    ∃ q, (Package.resolve name source other tracing).outcome = .ok q := by
  obtain ⟨s, hs, hitems⟩ := resolve_succeeds_iff.mp h
  obtain ⟨hdecls, hregistrable⟩ := SymbolTable.ofDecls_eq_ok_iff.mp hs
  have hother := hregistrable.perm hperm
  refine resolve_succeeds_iff.mpr
    ⟨{ decls := other.decls }, SymbolTable.ofDecls_eq_ok_iff.mpr ⟨rfl, hother⟩, ?_⟩
  intro b
  have hmatch : Matching fun (a : s.Id) (b : SymbolTable.Id { decls := other.decls }) =>
      s.get a = SymbolTable.get _ b :=
    matching_of_perm (by rw [hdecls]; exact hperm) hother.nodup_names
  have hmem : SymbolTable.get { decls := other.decls } b ∈ s.decls := by
    rw [hdecls]
    exact hperm.mem_iff.mpr (get_mem b)
  obtain ⟨a, ha⟩ := exists_get_eq hmem
  obtain ⟨item, hitem⟩ := hitems a
  exact ⟨item, (yields_item_iff hmatch ha).mp hitem⟩

/-! ### The items of declarations -/

def IsItemOf (t : SymbolTable) (d : Decl) (item : Resolved.Item) : Prop :=
  ∃ id : t.Id, t.get id = d ∧ Yields Known (Plan.item id) item

theorem items_of_resolve {name source : String} {schema : Schema} {tracing : Tracing}
    {p : Package} (h : (Package.resolve name source schema tracing).outcome = .ok p) :
    ∃ t, SymbolTable.ofDecls schema.decls = .ok t ∧
      ∃ ds, ds.Perm schema.decls ∧ List.Forall₂ (IsItemOf t) ds p.items := by
  obtain ⟨t, ht, order, itemAt, horder, hyields, rfl⟩ := exists_order_of_resolve h
  have hdecls := (SymbolTable.ofDecls_eq_ok_iff.mp ht).1
  refine ⟨t, ht, order.map t.get, ?_, ?_⟩
  · rw [← hdecls]
    exact horder.perm_decls
  · rw [List.forall₂_map_left_iff, List.forall₂_map_right_iff, List.forall₂_same]
    intro id _
    exact ⟨id, rfl, hyields id⟩

/-- Rearranging the declarations keeps the item of each. -/
theorem IsItemOf.of_perm (hperm : s.decls.Perm t.decls)
    (hnodup : (t.decls.map Decl.name).Nodup) {d : Decl} {item : Resolved.Item}
    (h : IsItemOf s d item) : IsItemOf t d item := by
  obtain ⟨a, rfl, hitem⟩ := h
  obtain ⟨b, hb⟩ := exists_get_eq (hperm.mem_iff.mp (get_mem a))
  exact ⟨b, hb, (yields_item_iff (matching_of_perm hperm hnodup) hb.symm).mp hitem⟩

theorem isItemOf_rightUnique (hnodup : (t.decls.map Decl.name).Nodup) :
    Relator.RightUnique (IsItemOf t) := by
  rintro d item item' ⟨a, ha, hitem⟩ ⟨b, hb, hitem'⟩
  have hsame := (yields_item_iff (matching_of_perm (.refl t.decls) hnodup)
      (ha.trans hb.symm)).mp hitem
  exact hsame.unique known_unique hitem'

theorem IsItemOf.isOf {d : Decl} {item : Resolved.Item} (h : IsItemOf t d item) :
    item.IsOf d := by
  obtain ⟨id, rfl, hitem⟩ := h
  exact item_isOf (itemResolves_of_yields hitem)

/-- The items of a package do not depend on the order of the declarations, up to their own
    order. -/
theorem perm_items_of_perm {name source : String} {schema other : Schema}
    {tracing : Tracing} {p q : Package} (hperm : schema.decls.Perm other.decls)
    (hp : (Package.resolve name source schema tracing).outcome = .ok p)
    (hq : (Package.resolve name source other tracing).outcome = .ok q) :
    p.items.Perm q.items := by
  obtain ⟨s, hs, ds, hds, hitems⟩ := items_of_resolve hp
  obtain ⟨t, ht, ds', hds', hitems'⟩ := items_of_resolve hq
  obtain ⟨hsdecls, _⟩ := SymbolTable.ofDecls_eq_ok_iff.mp hs
  obtain ⟨htdecls, hregistrable⟩ := SymbolTable.ofDecls_eq_ok_iff.mp ht
  have htables : s.decls.Perm t.decls := by
    rw [hsdecls, htdecls]
    exact hperm
  have hnodup : (t.decls.map Decl.name).Nodup := by
    rw [htdecls]
    exact hregistrable.nodup_names
  -- the items of `q`, in the order that the declarations have in `p`
  obtain ⟨items, hrearranged, hpermItems⟩ :=
    List.perm_comp_forall₂ (hds.trans (hperm.trans hds'.symm)) hitems'
  have hmoved : List.Forall₂ (IsItemOf t) ds p.items :=
    hitems.imp fun _ _ hitem => hitem.of_perm htables hnodup
  rw [List.right_unique_forall₂' (isItemOf_rightUnique hnodup) hmoved hrearranged]
  exact hpermItems

/-- **The order of declarations does not matter to resolution.**  If one schema declares
    what another declares, in any other order, then both have a package or neither has;
    and the two packages have the same items, in their own orders.  Each declaration has
    one and the same item in both, and nothing else in them bears its name. -/
theorem resolve_order_independent (name source : String) (schema other : Schema)
    (tracing : Tracing) (hsummary : schema.docSummary = other.docSummary)
    (hverbose : schema.docVerbose = other.docVerbose)
    (hperm : schema.decls.Perm other.decls) :
    ((∃ p, (Package.resolve name source schema tracing).outcome = .ok p) ↔
      ∃ q, (Package.resolve name source other tracing).outcome = .ok q) ∧
    ∀ p q, (Package.resolve name source schema tracing).outcome = .ok p →
      (Package.resolve name source other tracing).outcome = .ok q →
        p.items.Perm q.items ∧ q = { p with items := q.items } ∧
          ∀ d ∈ schema.decls, ∃ item, item ∈ p.items ∧ item ∈ q.items ∧ item.IsOf d ∧
            ∀ found, found ∈ p.items ∨ found ∈ q.items → found.name = d.name →
              found = item := by
  refine ⟨⟨resolve_succeeds_of_perm hperm, resolve_succeeds_of_perm hperm.symm⟩, ?_⟩
  intro p q hp hq
  have hitems := perm_items_of_perm hperm hp hq
  refine ⟨hitems, ?_, ?_⟩
  · obtain ⟨_, _, _, _, _, _, rfl⟩ := exists_order_of_resolve hp
    obtain ⟨_, _, _, _, _, _, rfl⟩ := exists_order_of_resolve hq
    rw [hsummary, hverbose]
  · intro d hd
    obtain ⟨t, ht, ds, hds, hall⟩ := items_of_resolve hp
    obtain ⟨item, hitem, hof⟩ := exists_of_forall₂_left hall (hds.mem_iff.mpr hd)
    refine ⟨item, hitem, hitems.mem_iff.mp hitem, hof.isOf, ?_⟩
    intro found hfound hname
    have hmem : found ∈ p.items := hfound.elim id hitems.mem_iff.mpr
    obtain ⟨_, _, _, _, hassembled⟩ := assembled_of_resolve hp
    exact List.inj_on_of_nodup_map hassembled.nodup_names hmem hitem
      (hname.trans hof.isOf.name_kind.1.symm)

/-- The declarations of `laneTable`, backwards: everything then stands before what refers
    to it. -/
theorem laneTable_order_independent :
    ∃ p q,
      (Package.resolve "lanes" "lanes.yaml" { decls := laneTable.decls } {}).outcome =
        .ok p ∧
      (Package.resolve "lanes" "lanes.yaml"
          { decls := laneTable.decls.reverse } {}).outcome = .ok q ∧
      p.items.Perm q.items := by
  have hindependent := resolve_order_independent "lanes" "lanes.yaml"
    { decls := laneTable.decls } { decls := laneTable.decls.reverse } {} rfl rfl
    (List.reverse_perm _).symm
  exact ⟨_, _, rfl, rfl, (hindependent.2 _ _ rfl rfl).1⟩

end WireSchema
