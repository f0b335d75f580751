import WireSchema.Proofs.PlanSemantics
import WireSchema.Resolver

/-!
# Resolving with and without memory

The resolver keeps what it has computed and marks what it is computing.  This file shows
that neither changes an answer.  `Resolver.answer` computes a quantity from scratch and
knows only the quantities that are being computed around it; `query_spec` says that a
resolver whose marks can be trusted answers every question in the same way and leaves
marks that can be trusted.

The difficulty is a quantity that is kept while others are being computed: from scratch it
would be computed inside of them, and could run into one of them.  It cannot, because a
quantity that can be computed has a height, the number of computations inside one another
that it takes, and what is being computed around it stands higher.
-/

namespace WireSchema

/-! ### Quantities by height -/

namespace Plan

variable {t : SymbolTable} {α : Type}

/-- A quantity that takes at most `height` computations inside one another. -/
def unroll : Nat → Key t → Except Error Nat
  | 0, _ => .error .tooDeep
  | height + 1, key => follow (unroll height) (rule key)

/-- A quantity can be computed. -/
def Known (key : Key t) (n : Nat) : Prop := ∃ height, unroll height key = .ok n

/-- To compute a quantity, another one is asked for. -/
def Needs (a b : Key t) : Prop := Asks Known (rule a) b

theorem unroll_succ_eq_ok_iff {height : Nat} {key : Key t} {n : Nat} :
    unroll (height + 1) key = .ok n ↔
      Yields (fun k m => unroll height k = .ok m) (rule key) n :=
  follow_eq_ok_iff

theorem unroll_succ {height : Nat} {key : Key t} {n : Nat} (h : unroll height key = .ok n) :
    unroll (height + 1) key = .ok n := by
  induction height generalizing key n with
  | zero => cases h
  | succ height ih =>
    rw [unroll_succ_eq_ok_iff] at h ⊢
    exact h.mono fun k m hk => ih hk

theorem unroll_mono {low high : Nat} (hle : low ≤ high) {key : Key t} {n : Nat}
    (h : unroll low key = .ok n) : unroll high key = .ok n := by
  induction hle with
  | refl => exact h
  | step _ ih => exact unroll_succ ih

/-- A quantity is known by a single number. -/
theorem Known.unique {key : Key t} {m n : Nat} (hm : Known key m) (hn : Known key n) :
    m = n := by
  obtain ⟨a, ha⟩ := hm
  obtain ⟨b, hb⟩ := hn
  have hma := unroll_mono (Nat.le_max_left a b) ha
  have hnb := unroll_mono (Nat.le_max_right a b) hb
  exact Except.ok.inj (hma.symm.trans hnb)

theorem known_unique (key : Key t) (m n : Nat) (hm : Known key m) (hn : Known key n) :
    m = n := hm.unique hn

/-- A known quantity has a least height. -/
theorem Known.least {key : Key t} {n : Nat} (h : Known key n) :
    ∃ low, unroll (low + 1) key = .ok n ∧ ∀ m, unroll low key ≠ .ok m := by
  obtain ⟨height, h⟩ := h
  induction height with
  | zero => cases h
  | succ height ih =>
    by_cases hlower : ∃ m, unroll height key = .ok m
    · obtain ⟨m, hm⟩ := hlower
      obtain rfl : m = n := Known.unique ⟨height, hm⟩ ⟨height + 1, h⟩
      exact ih hm
    · exact ⟨height, h, fun m hm => hlower ⟨m, hm⟩⟩

/-- One height serves all the questions of a plan. -/
theorem exists_height {p : Plan t α} {a : α} (h : Yields Known p a) :
    ∃ height, Yields (fun k m => unroll height k = .ok m) p a := by
  induction p with
  | done b => exact ⟨0, h⟩
  | fail e => exact h.elim
  | ask key next ih =>
    obtain ⟨n, ⟨first, hn⟩, h⟩ := h
    obtain ⟨rest, hrest⟩ := ih n h
    refine ⟨max first rest, n, unroll_mono (Nat.le_max_left first rest) hn, ?_⟩
    exact hrest.mono fun k m hk => unroll_mono (Nat.le_max_right first rest) hk

/-- **The known quantities are those that the rules yield from known quantities.** -/
theorem known_iff {key : Key t} {n : Nat} : Known key n ↔ Yields Known (rule key) n := by
  constructor
  · rintro ⟨height, h⟩
    cases height with
    | zero => cases h
    | succ height => exact (unroll_succ_eq_ok_iff.mp h).mono fun k m hk => ⟨height, hk⟩
  · intro h
    obtain ⟨height, h⟩ := exists_height h
    exact ⟨height + 1, unroll_succ_eq_ok_iff.mpr h⟩

/-- What a quantity needs takes fewer computations inside one another than the quantity
    itself. -/
theorem Needs.unroll {a b : Key t} (hab : Needs a b) {height n : Nat}
    (h : unroll (height + 1) a = .ok n) : ∃ m, Plan.unroll height b = .ok m :=
  Asks.answered known_unique (fun _ _ hk => ⟨height, hk⟩) hab (unroll_succ_eq_ok_iff.mp h)

/-- A quantity that is needed takes fewer computations inside one another. -/
theorem unroll_of_needs {a b : Key t} (hab : Relation.TransGen Needs a b) {height n : Nat}
    (h : unroll (height + 1) a = .ok n) : ∃ m, unroll height b = .ok m := by
  induction hab with
  | single hab => exact hab.unroll h
  | tail _ hbc ih =>
    obtain ⟨m, hm⟩ := ih
    cases height with
    | zero => cases hm
    | succ height =>
      obtain ⟨k, hk⟩ := hbc.unroll hm
      exact ⟨k, unroll_succ hk⟩

end Plan

open Plan

variable {t : SymbolTable}

def Key.number (key : Key t) : Fin (2 * t.decls.length) :=
  ⟨2 * key.id.val + if key.quantity = .value then 0 else 1,
    by have := key.id.isLt; split <;> omega⟩

theorem Key.number_injective : Function.Injective (Key.number (t := t)) := by
  rintro ⟨a, p⟩ ⟨b, q⟩ heq
  simp only [Key.number, Fin.mk.injEq] at heq
  have hid : a = b := by
    apply Fin.ext
    split at heq <;> split at heq <;> omega
  subst hid
  cases p <;> cases q <;> simp_all

/-- A list of quantities without repeats has at most two for every declaration. -/
theorem length_le_keys {keys : List (Key t)} (h : keys.Nodup) :
    keys.length ≤ 2 * t.size := by
  have hlen := (h.map Key.number_injective).length_le_card
  simpa [SymbolTable.size] using hlen

namespace Resolver

/-! ### Answers from scratch -/

/-- The answer to a question that is asked while the quantities in `stack` are being
    computed, with nothing kept. -/
def answer : Nat → List (Key t) → Key t → Except Error Nat
  | 0, _, _ => .error .tooDeep
  | depth + 1, stack, key =>
    if key ∈ stack then .error (circle { stack := stack } key)
    else follow (answer depth (key :: stack)) (rule key)

/-- There is room for every quantity that is not being computed, and for the one that
    closes a circle. -/
def Roomy (depth : Nat) (stack : List (Key t)) : Prop :=
  stack.Nodup ∧ 2 * t.size < depth + stack.length

theorem not_roomy_zero {stack : List (Key t)} : ¬ Roomy 0 stack := by
  intro h
  have hlen := length_le_keys h.1
  have hroom := h.2
  omega

theorem Roomy.push {depth : Nat} {stack : List (Key t)} (h : Roomy (depth + 1) stack)
    {key : Key t} (hkey : key ∉ stack) : Roomy depth (key :: stack) := by
  refine ⟨List.nodup_cons.mpr ⟨hkey, h.1⟩, ?_⟩
  have hroom := h.2
  rw [List.length_cons]
  omega

theorem roomy_start : Roomy (depthLimit t) ([] : List (Key t)) := by
  refine ⟨List.nodup_nil, ?_⟩
  simp [depthLimit]

theorem answer_succ {depth : Nat} {stack : List (Key t)} {key : Key t}
    (hkey : key ∉ stack) :
    answer (depth + 1) stack key = follow (answer depth (key :: stack)) (rule key) :=
  if_neg hkey

theorem unroll_of_answer {depth : Nat} {stack : List (Key t)} {key : Key t} {n : Nat}
    (h : answer depth stack key = .ok n) : unroll depth key = .ok n := by
  induction depth generalizing stack key n with
  | zero => cases h
  | succ depth ih =>
    by_cases hkey : key ∈ stack
    · simp [answer, hkey] at h
    · rw [answer_succ hkey, follow_eq_ok_iff] at h
      exact unroll_succ_eq_ok_iff.mpr (h.mono fun k m hk => ih hk)

theorem known_of_answer {depth : Nat} {stack : List (Key t)} {key : Key t} {n : Nat}
    (h : answer depth stack key = .ok n) : Known key n := ⟨depth, unroll_of_answer h⟩

/-- A quantity is computed from scratch if everything that is being computed around it
    stands higher. -/
theorem answer_of_unroll {depth height : Nat} {stack : List (Key t)} {key : Key t} {n : Nat}
    (hroom : Roomy depth stack) (hstack : ∀ k ∈ stack, ∀ m, unroll height k ≠ .ok m)
    (h : unroll height key = .ok n) : answer depth stack key = .ok n := by
  induction depth generalizing height stack key n with
  | zero => exact (not_roomy_zero hroom).elim
  | succ depth ih =>
    have hkey : key ∉ stack := fun hmem => hstack key hmem n h
    obtain ⟨low, hlow, hbelow⟩ := Known.least ⟨height, h⟩
    have hlt : low < height := by
      by_contra hle
      exact hbelow n (unroll_mono (Nat.le_of_not_lt hle) h)
    rw [answer_succ hkey, follow_eq_ok_iff]
    apply (unroll_succ_eq_ok_iff.mp hlow).mono
    intro k m hk
    refine ih (hroom.push hkey) ?_ hk
    -- at `low` neither the stack nor `key` itself can be computed
    intro k' hk' j hj
    rcases List.mem_cons.mp hk' with rfl | hk'
    · exact hbelow j hj
    · exact hstack k' hk' j (unroll_mono (Nat.le_of_lt hlt) hj)

def Leads (stack : List (Key t)) (key : Key t) : Prop :=
  ∀ k ∈ stack, Relation.TransGen Needs k key

theorem Leads.push {stack : List (Key t)} {key next : Key t} (h : Leads stack key)
    (hnext : Needs key next) : Leads (key :: stack) next := by
  intro k hk
  rcases List.mem_cons.mp hk with rfl | hk
  · exact Relation.TransGen.single hnext
  · exact (h k hk).tail hnext

/-- **A known quantity is computed from scratch inside whatever needs it.** -/
theorem answer_of_known {depth : Nat} {stack : List (Key t)} {key : Key t} {n : Nat}
    (hroom : Roomy depth stack) (hleads : Leads stack key) (h : Known key n) :
    answer depth stack key = .ok n := by
  obtain ⟨low, hlow, hbelow⟩ := h.least
  refine answer_of_unroll hroom ?_ hlow
  -- what leads to `key` and is as low as `key` would give `key` a lower height
  intro k hk m hm
  obtain ⟨j, hj⟩ := unroll_of_needs (hleads k hk) hm
  exact hbelow j hj

/-! ### Marks -/

theorem lookup_without_self (marks : List (Key t × Progress)) (key : Key t) :
    (without marks key).lookup key = none := by
  rw [List.lookup_eq_none_iff]
  intro entry hentry
  have hne : entry.1 ≠ key := by simpa using (List.mem_filter.mp hentry).2
  exact bne_iff_ne.mpr hne.symm

theorem lookup_without_of_ne (marks : List (Key t × Progress)) {key k : Key t}
    (h : k ≠ key) : (without marks key).lookup k = marks.lookup k := by
  induction marks with
  | nil => rfl
  | cons entry marks ih =>
    obtain ⟨key', progress⟩ := entry
    by_cases hkey : key' = key
    · subst hkey
      have hne : (k == key') = false := beq_false_of_ne h
      simpa [without, List.lookup_cons, hne] using ih
    · by_cases hk : k = key'
      · subst hk
        simp [without, hkey]
      · have hne : (k == key') = false := beq_false_of_ne hk
        simpa [without, hkey, List.lookup_cons, hne] using ih

theorem mark?_cons_without (r : Resolver t) (key k : Key t) (progress : Progress) :
    ((key, progress) :: without r.marks key).lookup k =
      if k = key then some progress else r.mark? k := by
  by_cases h : k = key
  · simp [h]
  · have hne : (k == key) = false := beq_false_of_ne h
    rw [List.lookup_cons, hne, if_neg h]
    exact lookup_without_of_ne r.marks h

theorem mark?_enter (r : Resolver t) (key k : Key t) :
    (r.enter key).mark? k = if k = key then some .inProgress else r.mark? k :=
  mark?_cons_without r key k .inProgress

theorem mark?_finish (r : Resolver t) (key k : Key t) (n : Nat) :
    (r.finish key n).mark? k = if k = key then some (.done n) else r.mark? k :=
  mark?_cons_without r key k (.done n)

theorem mark?_abandon (r : Resolver t) (key k : Key t) :
    (r.abandon key).mark? k = if k = key then none else r.mark? k := by
  by_cases h : k = key
  · rw [if_pos h, h]
    exact lookup_without_self r.marks key
  · rw [if_neg h]
    exact lookup_without_of_ne r.marks h

@[simp] theorem mark?_note (r : Resolver t) (key k : Key t) :
    (r.note key).mark? k = r.mark? k := by
  unfold note
  split <;> rfl

@[simp] theorem stack_note (r : Resolver t) (key : Key t) :
    (r.note key).stack = r.stack := by
  unfold note
  split <;> rfl

@[simp] theorem stack_enter (r : Resolver t) (key : Key t) :
    (r.enter key).stack = key :: r.stack := rfl

@[simp] theorem stack_finish (r : Resolver t) (key : Key t) (n : Nat) :
    (r.finish key n).stack = r.stack.tail := rfl

@[simp] theorem stack_abandon (r : Resolver t) (key : Key t) :
    (r.abandon key).stack = r.stack.tail := rfl

/-- The marks of a resolver can be trusted: what is in progress is on the stack, once, and
    what is done is known. -/
structure Trusted (r : Resolver t) : Prop where
  nodup : r.stack.Nodup
  inProgress_iff : ∀ key, r.mark? key = some .inProgress ↔ key ∈ r.stack
  known_of_done : ∀ key n, r.mark? key = some (.done n) → Known key n

theorem Trusted.notMem_stack {r : Resolver t} (h : Trusted r) {key : Key t}
    (hmark : r.mark? key = none) : key ∉ r.stack := by
  intro hmem
  have hprogress := (h.inProgress_iff key).mpr hmem
  rw [hmark] at hprogress
  cases hprogress

theorem trusted_fresh (selection : Selection) :
    Trusted ({ selection := selection } : Resolver t) where
  nodup := List.nodup_nil
  inProgress_iff := by simp [mark?]
  known_of_done := by simp [mark?]

theorem Trusted.note {r : Resolver t} (h : Trusted r) (key : Key t) :
    Trusted (r.note key) where
  nodup := by simpa using h.nodup
  inProgress_iff := by simpa using h.inProgress_iff
  known_of_done := by simpa using h.known_of_done

/-- A computation can begin with any quantity that is not being computed. -/
theorem Trusted.enter {r : Resolver t} (h : Trusted r) {key : Key t}
    (hkey : key ∉ r.stack) : Trusted (r.enter key) where
  nodup := List.nodup_cons.mpr ⟨hkey, h.nodup⟩
  inProgress_iff := by
    intro k
    rw [mark?_enter, stack_enter, List.mem_cons]
    by_cases hk : k = key
    · simp [hk]
    · simp [hk, h.inProgress_iff k]
  known_of_done := by
    intro k n hn
    rw [mark?_enter] at hn
    split at hn
    · cases hn
    · exact h.known_of_done k n hn

/-- Leaving the innermost computation keeps the trust, if its quantity is not marked
    afterwards or is marked rightly. -/
theorem Trusted.leave {r after : Resolver t} (h : Trusted r) {key : Key t}
    {stack : List (Key t)} {mark : Option Progress} (hstack : r.stack = key :: stack)
    (hafter : after.stack = stack)
    (hmark : ∀ k, after.mark? k = if k = key then mark else r.mark? k)
    (hleft : mark ≠ some .inProgress) (hdone : ∀ n, mark = some (.done n) → Known key n) :
    Trusted after := by
  have hnodup := h.nodup
  rw [hstack, List.nodup_cons] at hnodup
  refine ⟨by rw [hafter]; exact hnodup.2, ?_, ?_⟩
  · intro k
    rw [hmark, hafter]
    by_cases hk : k = key
    · subst hk
      simp [hleft, hnodup.1]
    · simp [hk, h.inProgress_iff k, hstack]
  · intro k n hn
    rw [hmark] at hn
    split at hn
    · rename_i hk
      rw [hk]
      exact hdone n hn
    · exact h.known_of_done k n hn

/-- The innermost computation can end with the known number of its quantity. -/
theorem Trusted.finish {r : Resolver t} (h : Trusted r) {key : Key t}
    {stack : List (Key t)} (hstack : r.stack = key :: stack) {n : Nat}
    (hn : Known key n) : Trusted (r.finish key n) := by
  refine h.leave hstack (by rw [stack_finish, hstack, List.tail_cons])
    (fun k => mark?_finish r key k n) (by simp) ?_
  intro m hm
  cases hm
  exact hn

theorem Trusted.abandon {r : Resolver t} (h : Trusted r) {key : Key t}
    {stack : List (Key t)} (hstack : r.stack = key :: stack) : Trusted (r.abandon key) :=
  h.leave hstack (by rw [stack_abandon, hstack, List.tail_cons])
    (fun k => mark?_abandon r key k) (by simp) (fun _ hm => by cases hm)

/-! ### Questions to a trusted resolver -/

/-- Carrying out a plan with a state amounts to following it, as long as every question it
    comes to is answered as `answers` says and keeps an invariant of the state. -/
theorem carryOut_spec {α : Type} {ask : Key t → Resolver t → Answer t Nat}
    {A : Key t → Nat → Prop} (answers : Key t → Except Error Nat)
    (inv : Resolver t → Prop) {plan : Plan t α}
    (hanswers : ∀ key n, answers key = .ok n → A key n)
    (hask : ∀ key r, Asks A plan key → inv r → (ask key r).1 = answers key ∧
      inv (ask key r).2) {r : Resolver t} (hr : inv r) :
    (carryOut ask plan r).1 = follow answers plan ∧ inv (carryOut ask plan r).2 := by
  induction plan generalizing r with
  | done a => exact ⟨rfl, hr⟩
  | fail e => exact ⟨rfl, hr⟩
  | ask key next ih =>
    obtain ⟨hfirst, hinv⟩ := hask key r (Or.inl rfl) hr
    rcases hout : ask key r with ⟨outcome, after⟩
    rw [hout] at hfirst hinv
    cases outcome with
    | ok n =>
      simp only [carryOut, follow, hout, ← hfirst]
      refine ih n (fun k r' hk => hask k r' (Or.inr ⟨n, hanswers key n hfirst.symm, hk⟩))
        hinv
    | error e =>
      simp only [carryOut, follow, hout, ← hfirst]
      exact ⟨trivial, hinv⟩

/-- **Memory is invisible.**  A trusted resolver answers a question as if it had kept
    nothing, stays trusted, and goes on with the computations it was in. -/
theorem query_spec {depth : Nat} {r : Resolver t} (key : Key t) (hr : Trusted r)
    (hroom : Roomy depth r.stack) (hleads : Leads r.stack key) :
    (query depth key r).1 = answer depth r.stack key ∧ Trusted (query depth key r).2 ∧
      (query depth key r).2.stack = r.stack := by
  induction depth generalizing r key with
  | zero => exact (not_roomy_zero hroom).elim
  | succ depth ih =>
    have hnote := hr.note key
    cases hmark : r.mark? key with
    | some progress =>
      cases progress with
      | done n =>
        have hknown := hr.known_of_done key n hmark
        simp only [query, mark?_note, hmark]
        exact ⟨(answer_of_known hroom hleads hknown).symm, hnote, stack_note r key⟩
      | inProgress =>
        have hkey := (hr.inProgress_iff key).mp hmark
        simp only [query, mark?_note, hmark, answer, if_pos hkey]
        refine ⟨?_, hnote, stack_note r key⟩
        simp [circle]
    | none =>
      have hkey : key ∉ r.stack := hr.notMem_stack hmark
      have henter : Trusted ((r.note key).enter key) := hnote.enter (by simpa using hkey)
      -- the questions of the rule are asked with `key` on the stack
      have hask : ∀ k r', Asks Known (rule key) k → Trusted r' ∧ r'.stack = key :: r.stack →
          (query depth k r').1 = answer depth (key :: r.stack) k ∧
            Trusted (query depth k r').2 ∧ (query depth k r').2.stack = key :: r.stack := by
        rintro k r' hk ⟨hr', hstack'⟩
        have hstep := ih k hr' (by rw [hstack']; exact hroom.push hkey)
          (by rw [hstack']; exact hleads.push hk)
        rw [hstack'] at hstep
        exact hstep
      obtain ⟨hfirst, htrusted, hstack⟩ :=
        carryOut_spec (answer depth (key :: r.stack)) (fun r' => Trusted r' ∧
          r'.stack = key :: r.stack) (fun _ _ => known_of_answer) hask ⟨henter, by simp⟩
      rcases hout : carryOut (query depth) (rule key) ((r.note key).enter key)
        with ⟨outcome, after⟩
      rw [hout] at hfirst htrusted hstack
      cases outcome with
      | ok n =>
        have hn : answer (depth + 1) r.stack key = .ok n := by
          rw [answer_succ hkey, ← hfirst]
        simp only [query, mark?_note, hmark, hout]
        refine ⟨hn.symm, htrusted.finish hstack (known_of_answer hn), ?_⟩
        rw [stack_finish, hstack, List.tail_cons]
      | error e =>
        simp only [query, mark?_note, hmark, hout]
        refine ⟨?_, htrusted.abandon hstack, ?_⟩
        · rw [answer_succ hkey, ← hfirst]
        · rw [stack_abandon, hstack, List.tail_cons]

/-! ### Plans carried out by a resolver -/

structure Idle (r : Resolver t) : Prop where
  trusted : Trusted r
  stack_nil : r.stack = []

/-- The resolvers that a fresh one becomes by carrying out plans, one after another and
    whether they succeed or not. -/
inductive Reached : Resolver t → Prop
  | fresh (selection : Selection) : Reached { selection := selection }
  | run {r : Resolver t} {α : Type} (h : Reached r) (plan : Plan t α) :
      Reached (r.run plan).2
  | select {r : Resolver t} (h : Reached r) (selection : Selection) :
      Reached { r with selection := selection }

/-- An idle resolver carries out a plan as if it had kept nothing, and is idle again. -/
theorem run_spec {α : Type} {r : Resolver t} (hr : Idle r) (plan : Plan t α) :
    (r.run plan).1 = follow (answer (depthLimit t) []) plan ∧ Idle (r.run plan).2 := by
  have hask : ∀ k r', Asks Known plan k → Idle r' → (query (depthLimit t) k r').1 =
      answer (depthLimit t) [] k ∧ Idle (query (depthLimit t) k r').2 := by
    rintro k r' _ ⟨hr', hstack⟩
    have hstep := query_spec k hr' (by rw [hstack]; exact roomy_start)
      (by rw [hstack]; intro _ h; cases h)
    rw [hstack] at hstep
    exact ⟨hstep.1, hstep.2.1, hstep.2.2⟩
  exact carryOut_spec (answer (depthLimit t) []) Idle (fun _ _ => known_of_answer) hask hr

/-- Whatever was asked before, a resolver is idle between two plans. -/
theorem Reached.idle {r : Resolver t} (h : Reached r) : Idle r := by
  induction h with
  | fresh selection => exact ⟨trusted_fresh selection, rfl⟩
  | run _ plan ih => exact (run_spec ih plan).2
  | select _ selection ih =>
    exact ⟨⟨ih.trusted.nodup, ih.trusted.inProgress_iff, ih.trusted.known_of_done⟩,
        ih.stack_nil⟩

theorem answer_eq_ok_iff {key : Key t} {n : Nat} :
    answer (depthLimit t) [] key = .ok n ↔ Known key n := by
  constructor
  · exact known_of_answer
  · exact answer_of_known roomy_start (fun _ h => by cases h)

/-- **What a resolver yields.**  A plan succeeds exactly with the result it has over the
    known quantities. -/
theorem run_eq_ok_iff {α : Type} {r : Resolver t} (hr : Idle r) {plan : Plan t α} {a : α} :
    (r.run plan).1 = .ok a ↔ Yields Known plan a := by
  rw [(run_spec hr plan).1, follow_eq_ok_iff]
  simp only [answer_eq_ok_iff]

theorem run_ask {r : Resolver t} (hr : r.Reached) (key : Key t) :
    (r.run (.ask key .done)).1 = answer (depthLimit t) [] key := by
  rw [(run_spec hr.idle _).1, follow]
  cases answer (depthLimit t) [] key <;> rfl

/-- **Where errors come from.**  An error is raised by the rule of a needed quantity, or
    it reports a circle and some quantity does need itself. -/
theorem cause_of_answer_error {depth : Nat} {stack : List (Key t)} {key : Key t}
    {e : Error} (hroom : Roomy depth stack) (hleads : Leads stack key)
    (h : answer depth stack key = .error e) :
    (∃ k, Relation.ReflTransGen Needs key k ∧ Raises Known (rule k) e) ∨
      ((∃ k : Key t, Relation.TransGen Needs k k) ∧ ∃ path, e = .cycle path) := by
  induction depth generalizing stack key with
  | zero => exact (not_roomy_zero hroom).elim
  | succ depth ih =>
    by_cases hkey : key ∈ stack
    · simp only [answer, if_pos hkey, Except.error.injEq] at h
      exact Or.inr ⟨⟨key, hleads key hkey⟩, _, h.symm⟩
    · rw [answer_succ hkey, follow_eq_error_iff] at h
      rcases h with hraise | ⟨k, hk, he⟩
      · exact Or.inl ⟨key, .refl, hraise.mono fun _ _ => known_of_answer⟩
      · have hneeds : Needs key k := hk.mono fun _ _ => known_of_answer
        rcases ih (hroom.push hkey) (hleads.push hneeds) he with ⟨k', hk', hraise⟩ | hcycle
        · exact Or.inl ⟨k', hk'.head hneeds, hraise⟩
        · exact Or.inr hcycle

end Resolver

end WireSchema
