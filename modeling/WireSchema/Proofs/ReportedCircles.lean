import WireSchema.Proofs.Circles
import WireSchema.Proofs.Lists
import WireSchema.Proofs.Memo
import WireSchema.Proofs.Rules

/-!
# The circles that resolvers report

A resolver keeps the quantities that it is computing on a stack, and a declaration can be
there twice, with its width and with its value.  The one step from a quantity of a
declaration to another of the same declaration leads from the width of a parameter to its
value (`asks_rule`).  So the names on the stack repeat side by side only, and with the
repeats dropped they form a circle of references, unless that step is the one that closes
the circle: the value of a parameter is computed, needs the parameter's width through
other quantities, and the width asks for the value again.  Then the name of the parameter
stands at both ends of the stack, and is written a third time behind it.

This is the only flaw of the reports, and the tables that have it are those in which a
parameter `MeasuresItself`.
-/

namespace WireSchema

open Plan

variable {t : SymbolTable}

namespace Resolver

/-! ### Dropping repeats -/

theorem head?_dropRepeats (l : List String) : (dropRepeats l).head? = l.head? := by
  fun_induction dropRepeats l with
  | case1 => rfl
  | case2 a => rfl
  | case3 b rest ih => exact ih
  | case4 a b rest hne ih => rfl

theorem getLast?_dropRepeats (l : List String) : (dropRepeats l).getLast? = l.getLast? := by
  fun_induction dropRepeats l with
  | case1 => rfl
  | case2 a => rfl
  | case3 b rest ih => rw [ih, List.getLast?_cons_cons]
  | case4 a b rest hne ih =>
    rw [List.getLast?_cons, ih, List.getLast?_cons_cons, List.getLast?_cons,
        Option.getD_some]

theorem mem_of_mem_dropRepeats {x : String} {l : List String} (h : x ∈ dropRepeats l) :
    x ∈ l := by
  fun_induction dropRepeats l with
  | case1 => exact h
  | case2 a => exact h
  | case3 b rest ih => exact List.mem_cons_of_mem b (ih h)
  | case4 a b rest hne ih =>
    rcases List.mem_cons.mp h with rfl | h
    · exact List.mem_cons_self
    · exact List.mem_cons_of_mem a (ih h)

theorem isChain_dropRepeats {R : String → String → Prop} {l : List String}
    (h : l.IsChain fun x y => x = y ∨ R x y) : (dropRepeats l).IsChain R := by
  fun_induction dropRepeats l with
  | case1 => exact .nil
  | case2 a => exact .singleton a
  | case3 b rest ih => exact ih h.tail
  | case4 a b rest hne ih =>
    refine (ih h.tail).cons ?_
    intro y hy
    rw [head?_dropRepeats, List.head?_cons, Option.mem_some_iff] at hy
    subst hy
    exact h.rel.resolve_left hne

theorem dropRepeats_concat {l : List String} {x : String} (h : ∀ y ∈ l.getLast?, y ≠ x) :
    dropRepeats (l ++ [x]) = dropRepeats l ++ [x] := by
  fun_induction dropRepeats l with
  | case1 => rfl
  | case2 a =>
    have hax : a ≠ x := h a rfl
    simp [dropRepeats, hax]
  | case3 b rest ih => simpa [dropRepeats] using ih h
  | case4 a b rest hne ih => simpa [dropRepeats, hne] using ih h

end Resolver

/-! ### Loops of quantities -/

def Key.name (key : Key t) : String := (t.get key.id).name

theorem Key.eq_or_eq {a k w : Key t} (hak : a.id = k.id) (hwk : w.id = k.id)
    (hne : k ≠ w) : a = k ∨ a = w := by
  obtain ⟨place, first⟩ := k
  obtain ⟨_, second⟩ := w
  obtain ⟨_, third⟩ := a
  obtain rfl := hak
  obtain rfl := hwk
  cases first <;> cases second <;> cases third <;> simp_all

theorem kind_of_asks_value {A : Key t → Nat → Prop} {id : t.Id} {k : Key t}
    (h : Asks A (rule ⟨id, .value⟩) k) : (t.get id).kind = .parameter := by
  simp only [rule, valueRule] at h
  cases hd : t.get id with
  | parameter p => rfl
  | enum e => simp [hd, Asks] at h
  | typedef d => simp [hd, Asks] at h
  | struct s => simp [hd, Asks] at h

/-- Everything in a chain but its end leads to something: to what comes later, or the last
    one to the end. -/
theorem exists_next {α : Type} {R : α → α → Prop} {l : List α} {a z : α}
    (h : (l ++ [z]).IsChain R) (ha : a ∈ l) :
    ∃ b, R a b ∧ (b ∈ l.tail ∨ (b = z ∧ l.getLast? = some a)) := by
  induction l with
  | nil => cases ha
  | cons x l ih =>
    cases l with
    | nil =>
      rw [List.mem_singleton.mp ha]
      exact ⟨z, h.rel, Or.inr ⟨rfl, rfl⟩⟩
    | cons y l =>
      rcases List.mem_cons.mp ha with rfl | ha
      · exact ⟨y, h.rel, Or.inl List.mem_cons_self⟩
      · obtain ⟨b, hab, hb⟩ := ih h.tail ha
        refine ⟨b, hab, ?_⟩
        rcases hb with hb | ⟨rfl, hlast⟩
        · exact Or.inl (List.mem_of_mem_tail hb)
        · exact Or.inr ⟨rfl, by rw [List.getLast?_cons_cons, hlast]⟩

section Loops

variable {k z : Key t} {rest : List (Key t)}

-- A loop begins and ends with quantities of one declaration, not always with the same one.

theorem refers_of_loop (hz : z.id = k.id) (hchain : (k :: rest ++ [z]).IsChain Needs)
    (hlast : ∀ a ∈ (k :: rest).getLast?, ¬ Derived a) {a : Key t}
    (ha : a ∈ (k :: rest).getLast?) : t.Refers a.id k.id := by
  have hneeds : Needs a z := (List.isChain_append.mp hchain).2.2 a ha z rfl
  rcases asks_rule hneeds with ⟨hderived, _⟩ | ⟨_, hrefers⟩
  · exact (hlast a ha hderived).elim
  · rw [← hz]
    exact hrefers

/-- The declarations on a loop are those that their names lead to. -/
theorem isFound_of_loop (hz : z.id = k.id) (hchain : (k :: rest ++ [z]).IsChain Needs)
    (hlast : ∀ a ∈ (k :: rest).getLast?, ¬ Derived a) :
    ∀ a ∈ k :: rest, t.IsFound a.id := by
  have hfirst : t.Refers ((k :: rest).getLast (List.cons_ne_nil _ _)).id k.id :=
    refers_of_loop hz hchain hlast (List.getLast?_eq_some_getLast _)
  apply hchain.left_of_append.induction (fun a => t.IsFound a.id) _ _ fun _ =>
    hfirst.isFound
  intro a b hab ha
  rcases asks_rule hab with ⟨_, rfl⟩ | ⟨_, hrefers⟩
  · exact ha
  · exact hrefers.isFound

/-- Along quantities that need one another the two of a parameter stand side by side, so
    no name is left twice when repeats are dropped. -/
theorem nodup_names_of_loop {keys : List (Key t)} (hnodup : keys.Nodup)
    (hchain : (keys ++ [z]).IsChain Needs) (hlast : ∀ a ∈ keys.getLast?, ¬ Derived a)
    (hfound : ∀ a ∈ keys, t.IsFound a.id) :
    (Resolver.dropRepeats (keys.map Key.name)).Nodup := by
  induction keys with
  | nil => exact List.nodup_nil
  | cons a keys ih =>
    cases keys with
    | nil => exact List.nodup_singleton _
    | cons b keys =>
      rw [List.nodup_cons] at hnodup
      have hrest := ih hnodup.2 hchain.tail (by rwa [List.getLast?_cons_cons] at hlast)
        fun c hc => hfound c (List.mem_cons_of_mem a hc)
      by_cases hab : a.name = b.name
      · simpa [Resolver.dropRepeats, hab] using hrest
      · simp only [List.map_cons, Resolver.dropRepeats, hab, if_false, List.nodup_cons]
        refine ⟨?_, hrest⟩
        intro hmem
        have hname : a.name ∈ (b :: keys).map Key.name :=
          Resolver.mem_of_mem_dropRepeats hmem
        obtain ⟨c, hc, hca⟩ := List.mem_map.mp hname
        have hid : c.id = a.id := (hfound c (List.mem_cons_of_mem a hc)).eq_of_name_eq
          (hfound a List.mem_cons_self) hca
        have hne : c ≠ a := fun heq => hnodup.1 (heq ▸ hc)
        obtain ⟨d, hcd, hd⟩ := exists_next hchain.tail hc
        obtain ⟨id, quantity⟩ := a
        obtain ⟨place, other⟩ := c
        obtain rfl : id = place := hid.symm
        cases quantity with
        | width =>
          -- then `c` is the value, which is asked for right away
          obtain rfl : other = .value := by cases other <;> simp_all
          have hderived : Derived ⟨id, .width⟩ := ⟨rfl, kind_of_asks_value hcd⟩
          rcases asks_rule hchain.rel with ⟨_, rfl⟩ | ⟨hnot, _⟩
          · exact hab rfl
          · exact hnot hderived
        | value =>
          -- then `c` is the width, and asks for the value that came before it
          obtain rfl : other = .width := by cases other <;> simp_all
          have hderived : Derived ⟨id, .width⟩ := ⟨rfl, kind_of_asks_value hchain.rel⟩
          rcases asks_rule hcd with ⟨_, rfl⟩ | ⟨hnot, _⟩
          · rcases hd with hd | ⟨_, hend⟩
            · exact hnodup.1 (List.mem_of_mem_tail hd)
            · exact hlast _ (by rw [List.getLast?_cons_cons, hend]; rfl) hderived
          · exact hnot hderived

/-- **A loop of quantities is a circle of declarations**, if it does not end in the step
    from the width of a parameter to its value. -/
theorem isCircle_of_loop (hnodup : (k :: rest).Nodup) (hz : z.id = k.id)
    (hchain : (k :: rest ++ [z]).IsChain Needs)
    (hlast : ∀ a ∈ (k :: rest).getLast?, ¬ Derived a) :
    t.IsCircle (Resolver.dropRepeats ((k :: rest).map Key.name) ++ [k.name]) := by
  have hfound := isFound_of_loop hz hchain hlast
  have hhead : (Resolver.dropRepeats ((k :: rest).map Key.name)).head? = some k.name :=
    Resolver.head?_dropRepeats _
  refine ⟨?_, ?_, ?_, ?_⟩
  · have hne : Resolver.dropRepeats ((k :: rest).map Key.name) ≠ [] := by
      intro hnil
      rw [hnil] at hhead
      cases hhead
    rw [List.length_append]
    have hpos := List.length_pos_iff.mpr hne
    simp only [List.length_singleton]
    omega
  · rw [List.getLast?_concat, List.head?_append, hhead, Option.some_or]
  · rw [List.dropLast_concat]
    exact nodup_names_of_loop hnodup hchain hlast hfound
  · have hnames : ((k :: rest).map Key.name).IsChain fun x y => x = y ∨
        t.NameRefers x y := by
      rw [List.isChain_map]
      apply hchain.left_of_append.imp_of_mem_imp
      intro a b ha _ hab
      rcases asks_rule hab with ⟨_, rfl⟩ | ⟨_, hrefers⟩
      · exact Or.inl rfl
      · exact Or.inr (hrefers.nameRefers (hfound a ha))
    refine (Resolver.isChain_dropRepeats hnames).append (.singleton _) ?_
    -- the last declaration refers to the first one
    intro x hx y hy
    rw [Resolver.getLast?_dropRepeats, List.getLast?_map] at hx
    obtain ⟨a, ha, rfl⟩ := Option.map_eq_some_iff.mp hx
    obtain rfl : k.name = y := Option.some.inj hy
    exact (refers_of_loop hz hchain hlast ha).nameRefers
      (hfound a (List.mem_of_getLast? ha))

end Loops

/-! ### From loops to reports -/

namespace Resolver

/-- The names that are reported when `k` is met again after the quantities in `inner`. -/
def report (k : Key t) (inner : List (Key t)) : List String :=
  dropRepeats ((k :: inner).map Key.name) ++ [k.name]

/-- What stands on a stack above `x`, between two occurrences of `x`, is a circle.  The
    innermost element of a stack comes first, and `x` is about to be put on it once
    more. -/
theorem circle_of_stack {α : Type} [DecidableEq α] {R : α → α → Prop} {x : α}
    {stack : List α} (hx : x ∈ stack) (hnodup : stack.Nodup)
    (hchain : (x :: stack).IsChain fun a b => R b a) :
    (x :: (stack.takeWhile (· != x)).reverse).Nodup ∧
      (x :: (stack.takeWhile (· != x)).reverse ++ [x]).IsChain R := by
  obtain ⟨above, below, rfl, habove⟩ := List.eq_append_cons_of_mem hx
  rw [takeWhile_ne_append_cons habove]
  constructor
  · rw [List.nodup_cons, List.mem_reverse, List.nodup_reverse]
    exact ⟨habove, hnodup.of_append_left⟩
  · have hcut : (x :: above ++ [x]).IsChain fun a b => R b a :=
      (List.isChain_cons_split.mp hchain).1
    rw [← List.isChain_reverse] at hcut
    simpa using hcut

/-- A circle that is reported is a loop of quantities, each of which needs the next. -/
theorem loop_of_answer_error {depth : Nat} {stack : List (Key t)} {key : Key t}
    {path : List String} (hroom : Roomy depth stack)
    (hstack : (key :: stack).IsChain fun a b => Needs b a)
    (h : answer depth stack key = .error (.cycle path)) :
    ∃ (k : Key t) (inner : List (Key t)),
      (k :: inner).Nodup ∧ (k :: inner ++ [k]).IsChain Needs ∧ path = report k inner := by
  induction depth generalizing stack key with
  | zero => exact (not_roomy_zero hroom).elim
  | succ depth ih =>
    by_cases hkey : key ∈ stack
    · simp only [answer, if_pos hkey, Except.error.injEq] at h
      obtain ⟨hnodup, hchain⟩ := circle_of_stack hkey hroom.1 hstack
      exact ⟨key, _, hnodup, hchain, (Error.cycle.inj h).symm⟩
    · rw [answer_succ hkey, follow_eq_error_iff] at h
      rcases h with hraise | ⟨k, hk, he⟩
      · cases raises_rule hraise
      · have hneeds : Needs key k := hk.mono fun _ _ => known_of_answer
        exact ih (hroom.push hkey) (.cons_cons hneeds hstack) he

section Widths

variable {k w : Key t} {mid : List (Key t)}

theorem not_derived_of_loop (hw : w.quantity = .width)
    (hchain : (k :: mid ++ [w]).IsChain Needs) :
    ∀ a ∈ (k :: mid).getLast?, ¬ Derived a := by
  intro a ha hderived
  have hneeds : Needs a w := (List.isChain_append.mp hchain).2.2 a ha w rfl
  rcases asks_rule hneeds with ⟨_, rfl⟩ | ⟨hnot, _⟩
  · cases hw
  · exact hnot hderived

/-- Where a loop comes to the width of the declaration with whose value it began, it is a
    circle already. -/
theorem isCircle_of_width (hid : w.id = k.id) (hw : w.quantity = .width)
    (hnodup : (k :: mid).Nodup) (hchain : (k :: mid ++ [w]).IsChain Needs) :
    t.IsCircle (report k mid) :=
  isCircle_of_loop hnodup hid hchain (not_derived_of_loop hw hchain)

/-- If the width comes into the report as well, the name of the declaration is written
    once more. -/
theorem report_concat (hid : w.id = k.id) (hw : w.quantity = .width) (hmid : mid ≠ [])
    (hnodup : (k :: mid ++ [w]).Nodup) (hchain : (k :: mid ++ [w]).IsChain Needs) :
    report k (mid ++ [w]) = report k mid ++ [k.name] := by
  have hfound := isFound_of_loop hid hchain (not_derived_of_loop hw hchain)
  have hends : ∀ y ∈ ((k :: mid).map Key.name).getLast?, y ≠ k.name := by
    intro y hy hname
    rw [List.getLast?_map] at hy
    obtain ⟨a, ha, rfl⟩ := Option.map_eq_some_iff.mp hy
    have hak : a.id = k.id := (hfound a (List.mem_of_getLast? ha)).eq_of_name_eq
      (hfound k List.mem_cons_self) hname
    obtain ⟨m, ms, rfl⟩ := List.exists_cons_of_ne_nil hmid
    have hamid : a ∈ m :: ms := List.mem_of_getLast?
      (by rwa [List.getLast?_cons_cons] at ha)
    -- `a` would be a third quantity of one declaration
    have hdistinct : (k :: (m :: ms ++ [w])).Nodup := hnodup
    rw [List.nodup_cons, List.nodup_append] at hdistinct
    obtain ⟨hk, _, _, hmidw⟩ := hdistinct
    have hkw : k ≠ w := fun heq => hk (by simp [heq])
    rcases Key.eq_or_eq hak hid hkw with rfl | rfl
    · exact hk (List.mem_append_left _ hamid)
    · exact hmidw a hamid a (List.mem_singleton_self a) rfl
  have hwname : w.name = k.name := by rw [Key.name, Key.name, hid]
  rw [report, report, ← List.cons_append, List.map_append, List.map_singleton, hwname,
      dropRepeats_concat hends]

end Widths

/-- **What is reported for a loop** is a circle, or else a circle with one name added to
    it: the loop began with the value of a parameter, and came back to it from the
    parameter's width. -/
theorem report_cases {k : Key t} {inner : List (Key t)} (hnodup : (k :: inner).Nodup)
    (hchain : (k :: inner ++ [k]).IsChain Needs) :
    t.IsCircle (report k inner) ∨
      ∃ mid w, mid ≠ [] ∧ inner = mid ++ [w] ∧ k = ⟨w.id, .value⟩ ∧ w.quantity = .width ∧
        t.IsCircle (report k mid) ∧ report k inner = report k mid ++ [k.name] := by
  rcases inner.eq_nil_or_concat' with rfl | ⟨mid, w, rfl⟩
  · refine Or.inl (isCircle_of_loop hnodup rfl hchain ?_)
    intro a ha hderived
    obtain rfl : k = a := Option.some.inj ha
    rcases asks_rule hchain.rel with ⟨_, hk⟩ | ⟨hnot, _⟩
    · rw [hk] at hderived
      cases hderived.1
    · exact hnot hderived
  have hend : (k :: (mid ++ [w])).getLast? = some w := by
    rw [← List.cons_append, List.getLast?_concat]
  have hneeds : Needs w k := (List.isChain_append.mp hchain).2.2 w hend k rfl
  have hwidth : (k :: mid ++ [w]).IsChain Needs := hchain.left_of_append
  rcases asks_rule hneeds with ⟨⟨hw, _⟩, hk⟩ | ⟨hnot, _⟩
  · have hid : w.id = k.id := by rw [hk]
    have hcircle := isCircle_of_width hid hw (List.nodup_append.mp hnodup).1 hwidth
    by_cases hmid : mid = []
    · -- the value asks for the width at once
      subst hmid
      have hwname : w.name = k.name := by rw [Key.name, Key.name, hid]
      have hreport : report k [w] = report k [] := by simp [report, dropRepeats, hwname]
      exact Or.inl (hreport ▸ hcircle)
    · exact Or.inr ⟨mid, w, hmid, rfl, hk, hw, hcircle,
          report_concat hid hw hmid hnodup hwidth⟩
  · refine Or.inl (isCircle_of_loop hnodup rfl hchain ?_)
    intro a ha
    rw [hend, Option.mem_some_iff] at ha
    rwa [← ha]

end Resolver

/-! ### Parameters that measure themselves -/

/-- The value of a parameter needs the parameter's own width, and not at once but through
    other quantities. -/
def SymbolTable.MeasuresItself (t : SymbolTable) (id : t.Id) : Prop :=
  Relation.TransGen Needs (⟨id, .value⟩ : Key t) ⟨id, .width⟩ ∧
    ¬ Needs (⟨id, .value⟩ : Key t) ⟨id, .width⟩

theorem needs_value_of_width {id : t.Id} (hkind : (t.get id).kind = .parameter) :
    Needs (⟨id, .width⟩ : Key t) ⟨id, .value⟩ := by
  cases hd : t.get id with
  | parameter p =>
    simp only [Needs, rule, widthRule, hd]
    exact Or.inl rfl
  | enum e => simp [hd, Decl.kind] at hkind
  | typedef d => simp [hd, Decl.kind] at hkind
  | struct s => simp [hd, Decl.kind] at hkind

theorem not_known_of_needs_self {key : Key t} (h : Relation.TransGen Needs key key)
    (n : Nat) : ¬ Known key n := by
  intro hknown
  obtain ⟨low, hlow, hbelow⟩ := hknown.least
  obtain ⟨m, hm⟩ := unroll_of_needs h hlow
  exact hbelow m hm

/-- A plan comes to one question at most that has no answer. -/
theorem asks_unanswered_unique {α : Type} {p : Plan t α} {a b : Key t}
    (ha : Asks Known p a) (hb : Asks Known p b) (hna : ∀ n, ¬ Known a n)
    (hnb : ∀ n, ¬ Known b n) : a = b := by
  induction p with
  | done c => exact ha.elim
  | fail e => exact ha.elim
  | ask key next ih =>
    rcases ha with rfl | ⟨m, hm, ha⟩
    · rcases hb with rfl | ⟨n, hn, _⟩
      · rfl
      · exact (hna n hn).elim
    · rcases hb with rfl | ⟨n, hn, hb⟩
      · exact (hnb m hm).elim
      · obtain rfl := hm.unique hn
        exact ih m ha hb

theorem needs_self_of_loop {k a : Key t} {inner : List (Key t)}
    (hchain : (k :: inner ++ [k]).IsChain Needs) (ha : a ∈ k :: inner) :
    Relation.TransGen Needs a a := by
  have hfrom : ∀ b ∈ k :: inner, Relation.ReflTransGen Needs k b :=
    hchain.left_of_append.induction _ _ (fun _ _ hbc hb => hb.tail hbc) fun _ => .refl
  have hto : ∀ b ∈ k :: inner, Relation.ReflTransGen Needs b k :=
    hchain.backwards_concat_induction _ _ (fun _ _ hbc hc => hc.head hbc) .refl
  obtain ⟨b, hab, hb | ⟨rfl, _⟩⟩ := exists_next hchain ha
  · exact .head' hab ((hto b (List.mem_of_mem_tail hb)).trans (hfrom a ha))
  · exact .head' hab (hfrom a ha)

/-- A loop that ends at the width of the parameter it began with means that the parameter
    measures itself. -/
theorem measuresItself_of_loop {k w : Key t} {mid : List (Key t)} (hmid : mid ≠ [])
    (hk : k = ⟨w.id, .value⟩) (hw : w.quantity = .width)
    (hnodup : (k :: (mid ++ [w])).Nodup)
    (hchain : (k :: (mid ++ [w]) ++ [k]).IsChain Needs) : t.MeasuresItself w.id := by
  obtain ⟨m, ms, rfl⟩ := List.exists_cons_of_ne_nil hmid
  have hkm : Needs k m := hchain.rel
  have hmw : Relation.ReflTransGen Needs m w :=
    List.relationReflTransGen_of_exists_isChain_cons (ms ++ [w])
    hchain.tail.left_of_append (by simp)
  have hwkey : w = ⟨w.id, .width⟩ := by rw [← hw]
  refine ⟨?_, ?_⟩
  · rw [← hwkey, ← hk]
    exact .head' hkm hmw
  · rw [← hwkey, ← hk]
    intro hkw
    -- the value asks for one quantity that cannot be computed, so the way to the width
    -- would have nothing on it
    have hm : m = w := asks_unanswered_unique hkm hkw
      (not_known_of_needs_self (needs_self_of_loop hchain (by simp)))
      (not_known_of_needs_self (needs_self_of_loop hchain (by simp)))
    rw [hm] at hnodup
    simp at hnodup

/-- What is related through others is related along a list without repeats. -/
theorem exists_nodup_chain {α : Type} {R : α → α → Prop} {a b : α}
    (h : Relation.TransGen R a b) (hne : a ≠ b) :
    ∃ mid, (a :: mid ++ [b]).Nodup ∧ (a :: mid ++ [b]).IsChain R := by
  induction h using Relation.TransGen.head_induction_on with
  | single hab => exact ⟨[], by simpa using hne, by simpa using hab⟩
  | @head a c hac hcb ih =>
    by_cases hcbeq : c = b
    · rw [hcbeq] at hac
      exact ⟨[], by simpa using hne, by simpa using hac⟩
    · obtain ⟨mid, hnodup, hchain⟩ := ih hcbeq
      by_cases ha : a ∈ c :: mid
      · -- the way goes through `a`: begin there
        obtain ⟨before, after, hsplit⟩ := List.append_of_mem ha
        have hsuffix : a :: after ++ [b] <:+ c :: mid ++ [b] :=
          ⟨before, by rw [hsplit]; simp⟩
        exact ⟨after, hnodup.sublist hsuffix.sublist, hchain.suffix hsuffix⟩
      · refine ⟨c :: mid, ?_, .cons_cons hac hchain⟩
        rw [List.cons_append, List.nodup_cons]
        exact ⟨by simp_all, hnodup⟩

namespace Resolver

/-! ### From loops to reports, once more -/

theorem follow_unanswered {α : Type} {answers : Key t → Except Error Nat} {p : Plan t α}
    {k : Key t} {e : Error}
    (hknown : ∀ key n, Asks Known p key → Known key n → answers key = .ok n)
    (hk : Asks Known p k) (he : answers k = .error e) : follow answers p = .error e := by
  induction p with
  | done a => exact hk.elim
  | fail e' => exact hk.elim
  | ask key next ih =>
    rcases hk with rfl | ⟨n, hn, hk⟩
    · simp only [follow, he]
    · simp only [follow, hknown key n (Or.inl rfl) hn]
      exact ih n (fun key' m hkey' hm => hknown key' m (Or.inr ⟨n, hn, hkey'⟩) hm) hk

theorem answer_of_unknown {depth : Nat} {stack : List (Key t)} {key next : Key t}
    (hroom : Roomy (depth + 1) stack) (hkey : key ∉ stack) (hleads : Leads stack key)
    (hneeds : Needs key next) (hunknown : ∀ n, ¬ Known next n) :
    answer (depth + 1) stack key = answer depth (key :: stack) next := by
  rw [answer_succ hkey]
  cases hnext : answer depth (key :: stack) next with
  | ok n => exact (hunknown n (known_of_answer hnext)).elim
  | error e =>
    refine follow_unanswered ?_ hneeds hnext
    intro k n hk hn
    exact answer_of_known (hroom.push hkey) (hleads.push hk) hn

/-- Along quantities that cannot be computed, the resolver goes on until it meets one of
    them again. -/
theorem answer_along {depth : Nat} {stack post : List (Key t)} {x z : Key t}
    (hroom : Roomy depth stack) (hleads : Leads stack x)
    (hchain : (x :: post ++ [z]).IsChain Needs)
    (hunknown : ∀ a ∈ x :: post ++ [z], ∀ n, ¬ Known a n) (hnodup : (x :: post).Nodup)
    (hnew : ∀ a ∈ x :: post, a ∉ stack) (hz : z ∈ (x :: post).reverse ++ stack) :
    answer depth stack x = .error (circle { stack := (x :: post).reverse ++ stack } z) := by
  induction post generalizing depth stack x with
  | nil =>
    cases depth with
    | zero => exact (not_roomy_zero hroom).elim
    | succ depth =>
      have hx : x ∉ stack := hnew x List.mem_cons_self
      rw [answer_of_unknown hroom hx hleads hchain.rel (hunknown z (by simp))]
      cases depth with
      | zero => exact (not_roomy_zero (hroom.push hx)).elim
      | succ depth => exact if_pos hz
  | cons y post ih =>
    cases depth with
    | zero => exact (not_roomy_zero hroom).elim
    | succ depth =>
      have hx : x ∉ stack := hnew x List.mem_cons_self
      rw [answer_of_unknown hroom hx hleads hchain.rel (hunknown y (by simp))]
      have hstack : (x :: y :: post).reverse ++ stack = (y :: post).reverse ++ x ::
          stack := by simp
      rw [hstack] at hz ⊢
      rw [List.nodup_cons] at hnodup
      have htail : ∀ a ∈ y :: post ++ [z], ∀ n, ¬ Known a n :=
        fun a ha => hunknown a (List.mem_cons_of_mem x ha)
      refine ih (hroom.push hx) (hleads.push hchain.rel) hchain.tail htail hnodup.2 ?_ hz
      intro a ha hmem
      rcases List.mem_cons.mp hmem with rfl | hmem
      · exact hnodup.1 ha
      · exact hnew a (List.mem_cons_of_mem x ha) hmem

/-- **A loop of quantities is reported** by a resolver that is asked for its first one. -/
theorem answer_of_loop {k : Key t} {inner : List (Key t)} (hnodup : (k :: inner).Nodup)
    (hchain : (k :: inner ++ [k]).IsChain Needs) :
    answer (depthLimit t) [] k = .error (.cycle (report k inner)) := by
  have hunknown : ∀ a ∈ k :: inner ++ [k], ∀ n, ¬ Known a n := by
    intro a ha
    have hmem : a ∈ k :: inner := by simpa [or_comm, or_assoc] using ha
    exact not_known_of_needs_self (needs_self_of_loop hchain hmem)
  rw [answer_along roomy_start (fun _ h => by cases h) hchain hunknown hnodup
      (fun _ _ h => by cases h) (by simp)]
  have hk : ∀ a ∈ inner.reverse, (a != k) = true := by
    intro a ha
    refine bne_iff_ne.mpr ?_
    rintro rfl
    exact (List.nodup_cons.mp hnodup).1 (List.mem_reverse.mp ha)
  have htake : ((k :: inner).reverse ++ []).takeWhile (· != k) = inner.reverse := by
    rw [List.append_nil, List.reverse_cons, List.takeWhile_append_of_pos hk]
    simp
  simp only [circle, report, htake, List.reverse_reverse]
  rfl

/-! ### Reports -/

/-- The resolver refuses a width or a value, and reports the path as a circle. -/
def Reports (r : Resolver t) (path : List String) : Prop :=
  ∃ id : t.Id, (r.run (widthOf id)).1 = .error (.cycle path) ∨
    (r.run (valueOf id)).1 = .error (.cycle path)

theorem loop_of_reports {r : Resolver t} (hr : r.Reached) {path : List String}
    (h : r.Reports path) :
    ∃ (k : Key t) (inner : List (Key t)),
      (k :: inner).Nodup ∧ (k :: inner ++ [k]).IsChain Needs ∧ path = report k inner := by
  have hanswer : ∃ key : Key t, answer (depthLimit t) [] key = .error (.cycle path) := by
    obtain ⟨id, hwidth | hvalue⟩ := h
    · exact ⟨⟨id, .width⟩, by rw [← run_ask hr]; exact hwidth⟩
    · exact ⟨⟨id, .value⟩, by rw [← run_ask hr]; exact hvalue⟩
  obtain ⟨key, hkey⟩ := hanswer
  exact loop_of_answer_error roomy_start (.singleton key) hkey

end Resolver

namespace SymbolTable

/-- A circle that is complete is none any more with another name behind it. -/
theorem IsCircle.not_concat {circle : List String} (h : t.IsCircle circle) (name : String) :
    ¬ t.IsCircle (circle ++ [name]) := by
  intro hlong
  have hnodup := hlong.nodup
  rw [List.dropLast_concat] at hnodup
  obtain ⟨hlength, hclosed, _, _⟩ := h
  match circle, hlength with
  | a :: b :: rest, _ =>
    rw [List.head?_cons, List.getLast?_cons_cons] at hclosed
    exact (List.nodup_cons.mp hnodup).1 (List.mem_of_getLast? hclosed.symm)

/-- The value of a parameter that measures itself is refused with a report that is no
    circle. -/
theorem MeasuresItself.reports {id : t.Id} (h : t.MeasuresItself id)
    (selection : Selection) :
    ∃ path, Resolver.Reports ({ selection := selection } : Resolver t) path ∧
      ¬ t.IsCircle path := by
  obtain ⟨hneeds, hnot⟩ := h
  obtain ⟨mid, hnodup, hchain⟩ := exists_nodup_chain hneeds (by simp)
  have hmid : mid ≠ [] := by
    rintro rfl
    exact hnot hchain.rel
  obtain ⟨b, hb, _⟩ := exists_next hchain List.mem_cons_self
  have hback := needs_value_of_width (kind_of_asks_value hb)
  have hloop : List.IsChain Needs ((⟨id, .value⟩ : Key t) :: (mid ++ [⟨id, .width⟩]) ++
        [⟨id, .value⟩]) := by
    refine hchain.append (.singleton _) ?_
    intro x hx y hy
    obtain rfl : ⟨id, .width⟩ = x := by
      rwa [List.getLast?_concat, Option.mem_some_iff] at hx
    obtain rfl : ⟨id, .value⟩ = y := Option.some.inj hy
    exact hback
  refine ⟨Resolver.report ⟨id, .value⟩ (mid ++ [⟨id, .width⟩]), ⟨id, Or.inr ?_⟩, ?_⟩
  · rw [valueOf, Resolver.run_ask (.fresh selection)]
    exact Resolver.answer_of_loop hnodup hloop
  · have hid : (⟨id, .width⟩ : Key t).id = (⟨id, .value⟩ : Key t).id := rfl
    rw [Resolver.report_concat hid rfl hmid hnodup hchain]
    exact (Resolver.isCircle_of_width hid rfl (List.nodup_append.mp hnodup).1
        hchain).not_concat _

end SymbolTable

/-- **The circles that a resolver reports are real, but for one name.**  Whatever resolver
    is asked for a width or a value, a path that it reports is a circle of declarations,
    or a circle behind which its name stands once more.  The second never happens exactly
    in those tables in which no parameter measures itself. -/
theorem reported_circles (t : SymbolTable) :
    (∀ r : Resolver t, r.Reached → ∀ path, r.Reports path →
      t.IsCircle path ∨
        ∃ circle name, t.IsCircle circle ∧ circle.head? = some name ∧
          path = circle ++ [name]) ∧
    ((∀ selection path,
        Resolver.Reports ({ selection := selection } : Resolver t) path →
          t.IsCircle path) ↔
      ∀ id : t.Id, ¬ t.MeasuresItself id) := by
  refine ⟨?_, ?_, ?_⟩
  · intro r hr path hpath
    obtain ⟨k, inner, hnodup, hchain, rfl⟩ := Resolver.loop_of_reports hr hpath
    rcases Resolver.report_cases hnodup hchain with
      hcircle | ⟨mid, w, _, _, _, _, hcircle, hreport⟩
    · exact Or.inl hcircle
    · refine Or.inr ⟨Resolver.report k mid, k.name, hcircle, ?_, hreport⟩
      rw [hcircle.closed, Resolver.report, List.getLast?_concat]
  · intro hcircles id hmeasures
    obtain ⟨path, hpath, hnot⟩ := hmeasures.reports .off
    exact hnot (hcircles .off path hpath)
  · intro hnone selection path hpath
    obtain ⟨k, inner, hnodup, hchain, rfl⟩ :=
      Resolver.loop_of_reports (.fresh selection) hpath
    rcases Resolver.report_cases hnodup hchain with
      hcircle | ⟨mid, w, hmid, rfl, hk, hw, _, _⟩
    · exact hcircle
    · exact (hnone w.id (measuresItself_of_loop hmid hk hw hnodup hchain)).elim

/-- In `ringTable` no parameter measures itself, since it has none; what is reported for
    its structs is a circle. -/
theorem ringTable_reports :
    (∀ id : SymbolTable.ringTable.Id, ¬ SymbolTable.ringTable.MeasuresItself id) ∧
      Resolver.Reports ({} : Resolver SymbolTable.ringTable) ["b_t", "c_t", "b_t"] ∧
        SymbolTable.ringTable.IsCircle ["b_t", "c_t", "b_t"] := by
  have hkinds : ∀ id : SymbolTable.ringTable.Id, (SymbolTable.ringTable.get id).kind ≠
      .parameter := by decide
  have hnone : ∀ id : SymbolTable.ringTable.Id, ¬ SymbolTable.ringTable.MeasuresItself
      id := by
    rintro id ⟨hneeds, _⟩
    obtain ⟨b, hb, _⟩ := Relation.TransGen.head'_iff.mp hneeds
    exact hkinds id (kind_of_asks_value hb)
  have hreports : Resolver.Reports ({} : Resolver SymbolTable.ringTable)
      ["b_t", "c_t", "b_t"] := ⟨⟨0, by decide⟩, Or.inl (by decide)⟩
  exact ⟨hnone, hreports, (reported_circles SymbolTable.ringTable).2.mpr hnone
      .off _ hreports⟩

/-- Two parameters, the first equal to the second and the second to the width of the
    first. -/
def gaugeTable : SymbolTable where
  decls :=
    [.parameter { name := "A", value := .ref "B" .value },
     .parameter { name := "B", value := .ref "A" .width }]

/-- The value of the first parameter is refused with a path that is no circle: `A` stands
    three times in it, and does not refer to itself. -/
theorem gaugeTable_not_circle :
    (({} : Resolver gaugeTable).run (valueOf ⟨0, by decide⟩)).1 =
        .error (.cycle ["A", "B", "A", "A"]) ∧
      ¬ gaugeTable.IsCircle ["A", "B", "A", "A"] ∧ ¬ gaugeTable.NameRefers "A" "A" := by
  refine ⟨by decide, ?_, ?_⟩
  · intro h
    exact absurd h.nodup (by decide)
  · rintro ⟨a, ha, hmem⟩
    revert ha hmem
    revert a
    decide

end WireSchema
