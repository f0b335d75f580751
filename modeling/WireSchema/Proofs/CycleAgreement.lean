import WireSchema.Proofs.Resolution

/-!
# The resolver and the sorter agree

Both the resolver and the sorter refuse circles and names that are not declared, but they
walk different graphs.  The sorter's nodes are declarations; the resolver's are
quantities, and the width of a parameter leads to the value of the same parameter, which
is no reference.

A circle of quantities becomes a circle of references once the steps from width to value
are dropped.  In the other direction each declaration has one quantity from which all its
references are reached, its `primary` one; if all of them can be computed, their heights
go down along references.
-/

namespace WireSchema

open Plan

variable {t : SymbolTable} {A : Key t → Nat → Prop}

/-! ### From quantities to declarations -/

/-- A path of quantities is a path of references, or the one step from the width of a
    parameter to its value. -/
theorem refers_of_needs {a b : Key t} (h : Relation.TransGen Needs a b) :
    Relation.TransGen t.Refers a.id b.id ∨
      (a.id = b.id ∧ a.quantity = .width ∧ b.quantity = .value) := by
  induction h with
  | single hab =>
    rcases asks_rule hab with ⟨⟨hwidth, _⟩, rfl⟩ | ⟨_, hrefers⟩
    · exact Or.inr ⟨rfl, hwidth, rfl⟩
    · exact Or.inl (.single hrefers)
  | tail _ hbc ih =>
    rcases asks_rule hbc with ⟨⟨hwidth, _⟩, rfl⟩ | ⟨_, hrefers⟩
    · rcases ih with hpath | ⟨_, _, hvalue⟩
      · exact Or.inl hpath
      · rw [hvalue] at hwidth
        cases hwidth
    · rcases ih with hpath | ⟨hid, _, _⟩
      · exact Or.inl (hpath.tail hrefers)
      · rw [hid]
        exact Or.inl (.single hrefers)

theorem not_needs_self (hacyclic : t.Acyclic) (key : Key t) :
    ¬ Relation.TransGen Needs key key := by
  intro h
  rcases refers_of_needs h with hcycle | ⟨_, hwidth, hvalue⟩
  · exact hacyclic key.id hcycle
  · rw [hwidth] at hvalue
    cases hvalue

/-- Where the sorter finds an order, the resolver finds neither a circle nor an unknown
    name. -/
theorem answer_error_of_closed_acyclic (hclosed : t.Closed) (hacyclic : t.Acyclic)
    {key : Key t} {e : Error}
    (h : Resolver.answer (Resolver.depthLimit t) [] key = .error e) :
    (∀ path, e ≠ .cycle path) ∧ ∀ owner name, e ≠ .unknownReference owner name := by
  rcases Resolver.cause_of_answer_error Resolver.roomy_start
      (fun _ hk => by cases hk) h with
    ⟨k, _, hraise⟩ | ⟨⟨k, hcycle⟩, _⟩
  · have hobjection := raises_rule hraise
    constructor
    · rintro path rfl
      cases hobjection
    · rintro owner name rfl
      cases hobjection with
      | unknownReference hname hnone =>
        obtain ⟨b, hb⟩ := hclosed.lookup hname
        rw [hnone] at hb
        cases hb
  · exact (not_needs_self hacyclic k hcycle).elim

/-! ### From declarations to quantities -/

/-- The quantity of a declaration that depends on all its references: the value of a
    parameter, else the width. -/
def primary (id : t.Id) : Key t :=
  ⟨id, if (t.get id).kind = .parameter then .value else .width⟩

def Answered (A : Key t → Nat → Prop) (name : String) : Prop :=
  ∃ k : Key t, t.lookup name = some k.id ∧ ∃ n, A k n

theorem answered_of_denotes {e : Expr} {z : Int} (h : Denotes A e z) {name : String}
    (hname : e.reference = some name) : Answered A name := by
  match e with
  | .literal k => cases hname
  | .ref n .value =>
    cases hname
    obtain ⟨id, v, hlookup, _, hv, _⟩ := h
    exact ⟨⟨id, .value⟩, hlookup, v, hv⟩
  | .ref n .width =>
    cases hname
    obtain ⟨id, w, hlookup, hw, _⟩ := h
    exact ⟨⟨id, .width⟩, hlookup, w, hw⟩

theorem answered_of_typeHasWidth {type : String} {w : Nat} (h : TypeHasWidth A type w) :
    Answered A type := by
  obtain ⟨id, hlookup, _, hw⟩ := h
  exact ⟨⟨id, .width⟩, hlookup, w, hw⟩

theorem answered_of_fieldHasWidth {f : Field} {w : Nat} (h : FieldHasWidth A f w)
    {name : String} (hname : f.type.reference = some name) : Answered A name := by
  unfold FieldHasWidth at h
  cases hf : f.type with
  | logic e =>
    rw [hf] at h hname
    exact answered_of_denotes h.1 hname
  | named type =>
    rw [hf] at h hname
    cases hname
    exact answered_of_typeHasWidth h

/-- A primary quantity is computed from all the references of its declaration. -/
theorem answered_of_yields {id : t.Id} {n : Nat} (h : Yields A (rule (primary id)) n)
    {name : String} (hname : name ∈ (t.get id).references) : Answered A name := by
  unfold primary at h
  cases hdecl : t.get id with
  | parameter p =>
    rw [if_pos (by simp [hdecl, Decl.kind])] at h
    simp only [hdecl, Decl.references, Option.mem_toList] at hname
    exact answered_of_denotes ((yields_value_parameter hdecl).mp h).1 hname
  | enum e =>
    rw [if_neg (by simp [hdecl, Decl.kind])] at h
    simp only [hdecl, Decl.references, Option.mem_toList] at hname
    exact answered_of_denotes ((yields_width_enum hdecl).mp h).1 hname
  | typedef d =>
    rw [if_neg (by simp [hdecl, Decl.kind])] at h
    simp only [hdecl, Decl.references, List.mem_append, Option.mem_toList] at hname
    cases hbase : d.base with
    | none =>
      rw [hbase] at hname
      exact answered_of_denotes ((yields_width_logic hdecl hbase).mp h).1
        (hname.resolve_left (by simp))
    | some base =>
      obtain ⟨count, hcount, _, _, each, heach, _, _⟩ :=
        (yields_width_array hdecl hbase).mp h
      rcases hname with hname | hname
      · rw [hbase] at hname
        cases hname
        exact answered_of_typeHasWidth heach
      · exact answered_of_denotes hcount hname
  | struct s =>
    rw [if_neg (by simp [hdecl, Decl.kind])] at h
    simp only [hdecl, Decl.references, List.mem_filterMap] at hname
    obtain ⟨f, hf, hname⟩ := hname
    obtain ⟨ws, hws, _, _⟩ := (yields_width_struct hdecl).mp h
    obtain ⟨w, _, hw⟩ := exists_of_forall₂_left hws hf
    exact answered_of_fieldHasWidth hw hname

/-- A declaration's primary quantity is as low as any other of its quantities. -/
theorem unroll_primary {height : Nat} {key : Key t} {n : Nat}
    (h : unroll height key = .ok n) : ∃ m, unroll height (primary key.id) = .ok m := by
  cases height with
  | zero => cases h
  | succ height =>
    obtain ⟨id, quantity⟩ := key
    unfold primary
    cases quantity with
    | value =>
      obtain ⟨p, hdecl⟩ := yields_value_kind (unroll_succ_eq_ok_iff.mp h)
      rw [if_pos (by simp [hdecl, Decl.kind])]
      exact ⟨n, h⟩
    | width =>
      by_cases hkind : (t.get id).kind = .parameter
      · rw [if_pos hkind]
        cases hdecl : t.get id with
        | parameter p =>
          obtain ⟨v, hv, _⟩ := (yields_width_parameter hdecl).mp
            (unroll_succ_eq_ok_iff.mp h)
          exact ⟨v, unroll_succ hv⟩
        | enum e => simp [hdecl, Decl.kind] at hkind
        | typedef d => simp [hdecl, Decl.kind] at hkind
        | struct s => simp [hdecl, Decl.kind] at hkind
      · rw [if_neg hkind]
        exact ⟨n, h⟩

/-- Heights of primary quantities go down along references. -/
theorem unroll_of_refers {a b : t.Id} (hab : t.Refers a b) {height n : Nat}
    (h : unroll (height + 1) (primary a) = .ok n) :
    ∃ m, unroll height (primary b) = .ok m := by
  obtain ⟨name, hname, hlookup⟩ := hab
  obtain ⟨k, hk, m, hm⟩ := answered_of_yields (unroll_succ_eq_ok_iff.mp h) hname
  rw [hlookup] at hk
  cases hk
  exact unroll_primary hm

theorem unroll_of_refers_trans {a b : t.Id} (hab : Relation.TransGen t.Refers a b)
    {height n : Nat} (h : unroll (height + 1) (primary a) = .ok n) :
    ∃ m, unroll height (primary b) = .ok m := by
  induction hab with
  | single hab => exact unroll_of_refers hab h
  | tail _ hbc ih =>
    obtain ⟨m, hm⟩ := ih
    obtain ⟨k, hk⟩ := unroll_of_refers hbc (unroll_succ hm)
    exact ⟨k, hk⟩

/-- Where every primary quantity is known, the sorter finds an order. -/
theorem closed_acyclic_of_known (h : ∀ id : t.Id, ∃ n, Known (primary id) n) :
    t.Closed ∧ t.Acyclic := by
  constructor
  · intro a name hname
    obtain ⟨n, hn⟩ := h a
    obtain ⟨k, hk, _⟩ := answered_of_yields (known_iff.mp hn) hname
    exact ⟨k.id, SymbolTable.name_of_lookup hk⟩
  · intro a hcycle
    -- a height of `a` gives a lower one
    have hnone : ∀ height n, unroll height (primary a) ≠ .ok n := by
      intro height
      induction height with
      | zero =>
        intro n hn
        cases hn
      | succ height ih =>
        intro n hn
        obtain ⟨m, hm⟩ := unroll_of_refers_trans hcycle hn
        exact ih m hm
    obtain ⟨n, height, hn⟩ := h a
    exact hnone height n hn

/-! ### The two checks -/

theorem known_primary_of_item {id : t.Id} {item : Resolved.Item}
    (h : ItemResolves Known id item) : ∃ n, Known (primary id) n := by
  obtain ⟨height, hwidth⟩ := h.known_width
  obtain ⟨n, hn⟩ := unroll_primary hwidth
  exact ⟨n, height, hn⟩

/-- The sorter succeeds wherever every declaration has an item. -/
theorem order_of_items (h : ∀ id : t.Id, ∃ item, ItemResolves Known id item)
    (selection : Selection) : ∃ order, (t.order selection).1 = .ok order := by
  have hknown : ∀ id : t.Id, ∃ n, Known (primary id) n := by
    intro id
    obtain ⟨item, hitem⟩ := h id
    exact known_primary_of_item hitem
  obtain ⟨hclosed, hacyclic⟩ := closed_acyclic_of_known hknown
  exact SymbolTable.order_of_closed_acyclic hclosed hacyclic selection

theorem sort_of_resolveItems {resolving : Selection} {items : List Resolved.Item}
    (h : (t.resolveItems resolving).outcome = .ok items) (sorting : Selection) :
    ∃ order, (t.sort sorting).outcome = .ok order := by
  obtain ⟨itemAt, hyields, _⟩ := SymbolTable.exists_itemAt h
  obtain ⟨order, horder⟩ := order_of_items
    (fun id => ⟨itemAt id, itemResolves_of_yields (hyields id)⟩) sorting
  exact ⟨order, SymbolTable.sort_outcome_eq_ok_iff.mpr horder⟩

/-- A schema is refused at its registration or at its items.  The order of a table whose
    items are there finds nothing wrong. -/
theorem resolve_outcome_error {name source : String} {schema : Schema} {tracing : Tracing}
    {errors : List Error}
    (h : (Package.resolve name source schema tracing).outcome = .error errors) :
    SymbolTable.ofDecls schema.decls = .error errors ∨
      ∃ t, SymbolTable.ofDecls schema.decls = .ok t ∧
        (t.resolveItems tracing.resolver).outcome = .error errors := by
  unfold Package.resolve at h
  rcases Journal.outcome_bind_eq_error_iff.mp h with h | ⟨t, ht, h⟩
  · exact Or.inl h
  · rcases Journal.outcome_bind_eq_error_iff.mp h with h | ⟨_, _, h⟩
    · cases h
    · rcases Journal.outcome_bind_eq_error_iff.mp h with h | ⟨items, hitems, h⟩
      · exact Or.inr ⟨t, ht, h⟩
      · -- the items are there, so the order is, and nothing after it fails
        obtain ⟨order, horder⟩ := sort_of_resolveItems hitems tracing.sorter
        rcases Journal.outcome_bind_eq_error_iff.mp h with h | ⟨_, _, h⟩
        · rw [horder] at h
          cases h
        · cases h

theorem run_ask_error {order : List t.Id} (horder : t.IsOrder order) {r : Resolver t}
    (hr : r.Reached) {key : Key t} {e : Error}
    (h : (r.run (.ask key .done)).1 = .error e) :
    (∀ path, e ≠ .cycle path) ∧ ∀ owner name, e ≠ .unknownReference owner name := by
  rw [(Resolver.run_spec hr.idle _).1, follow_eq_error_iff] at h
  rcases h with ⟨_, _, hraise⟩ | ⟨k, _, hk⟩
  · exact hraise.elim
  · exact answer_error_of_closed_acyclic horder.closed horder.acyclic hk

/-- **The resolver's checks agree with the sorter's.**  If every declaration of a table
    resolves, each with whatever resolver, then there is an order; so a package is refused
    for its declarations or by the resolver, never by the sorter.  And if there is an
    order, then no resolver, whatever it was asked before, refuses a width or a value for
    a circle or for an unknown name. -/
theorem resolver_agrees_with_sorter :
    (∀ (t : SymbolTable) (selection : Selection),
      (∀ id : t.Id, ∃ r : Resolver t, r.Reached ∧
          ∃ item, (r.run (Plan.item id)).1 = .ok item) →
        ∃ order, (t.order selection).1 = .ok order) ∧
    (∀ (name source : String) (schema : Schema) (tracing : Tracing) (errors : List Error),
      (Package.resolve name source schema tracing).outcome = .error errors →
        SymbolTable.ofDecls schema.decls = .error errors ∨
          ∃ t, SymbolTable.ofDecls schema.decls = .ok t ∧
            (t.resolveItems tracing.resolver).outcome = .error errors) ∧
    (∀ (t : SymbolTable) (selection : Selection),
        (∃ order, (t.order selection).1 = .ok order) →
      ∀ r : Resolver t, r.Reached → ∀ (id : t.Id) (e : Error),
        ((r.run (Plan.widthOf id)).1 = .error e ∨ (r.run (Plan.valueOf id)).1 = .error e) →
          (∀ path, e ≠ .cycle path) ∧ ∀ owner name, e ≠ .unknownReference owner name) := by
  refine ⟨?_, ?_, ?_⟩
  · intro t selection h
    refine order_of_items (fun id => ?_) selection
    obtain ⟨r, hr, item, hitem⟩ := h id
    exact ⟨item, itemResolves_of_yields ((Resolver.run_eq_ok_iff hr.idle).mp hitem)⟩
  · intro name source schema tracing errors h
    exact resolve_outcome_error h
  · rintro t selection ⟨order, horder⟩ r hr id e he
    have hisOrder := SymbolTable.isOrder_of_order horder
    rcases he with he | he
    · exact run_ask_error hisOrder hr he
    · exact run_ask_error hisOrder hr he

/-- `laneTable` resolves, so it has an order; its struct has no value, and that is no
    circle.  Without the declarations its struct refers to, it is the resolver that
    refuses the package. -/
theorem laneTable_agrees :
    (∃ order, (laneTable.order .off).1 = .ok order) ∧
      (∃ t, SymbolTable.ofDecls (laneTable.decls.take 1) = .ok t ∧
        (t.resolveItems .off).outcome = .error [.unknownReference "lane_t" "tags_t"]) ∧
      ∀ path, ((({} : Resolver laneTable).run (Plan.valueOf ⟨0, by decide⟩)).1 ≠
          .error (.cycle path)) := by
  obtain ⟨hresolved, hrefused, hordered⟩ := resolver_agrees_with_sorter
  have hitems : ∀ id : laneTable.Id, ∃ item,
      (({} : Resolver laneTable).run (Plan.item id)).1 = .ok item := by
    intro id
    have hok : ∀ id : laneTable.Id,
        (({} : Resolver laneTable).run (Plan.item id)).1.toOption.isSome := by decide
    cases hout : (({} : Resolver laneTable).run (Plan.item id)).1 with
    | ok item => exact ⟨item, rfl⟩
    | error e => simpa [hout, Except.toOption] using hok id
  have horder := hresolved laneTable .off fun id => ⟨{}, .fresh .off, hitems id⟩
  refine ⟨horder, ?_, ?_⟩
  · have herror := hrefused "lanes" "lanes.yaml" { decls := laneTable.decls.take 1 } {}
      [.unknownReference "lane_t" "tags_t"] rfl
    exact herror.resolve_left (by decide)
  · intro path hpath
    exact (hordered laneTable .off horder {} (.fresh .off) ⟨0, by decide⟩ _
        (.inr hpath)).1 path rfl

end WireSchema
