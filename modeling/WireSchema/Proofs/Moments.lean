import WireSchema.Proofs.Calls
import WireSchema.Proofs.Circles
import WireSchema.Proofs.Runs

/-!
# The resolver at every moment

A call on a resolver runs through many states before it returns: it enters computations
inside of computations, leaves them with a number or with an error, and looks up what it
has kept.  This file takes a call apart into single steps, so that something can be said
about all of these states.

`Work` is where a call stands: in its own plan, or in the rule of a quantity that others
are waiting for.  `Work.step` is the next thing that happens, and there is no limit on how
deep computations are inside one another.  `Resolver.run` gives what the steps come to
(`comes_run`), so its limit is never felt.  A `Moment` is a state of a whole history of
calls.

At every moment the marks can be trusted, and the stack holds just the computations that
the work is in (`Orderly`).
-/

namespace WireSchema

variable {t : SymbolTable} {α : Type}

/-! ### Work -/

/-- What goes on when an answer has come: the call, or the computation of a quantity for
    which others are waiting. -/
inductive Waiting (t : SymbolTable) (α : Type) where
  | call (next : Nat → Plan t α)
  | rule (key : Key t) (next : Nat → Plan t Nat) (outer : Waiting t α)

/-- Where a call stands: in its own plan, or in the computation of a quantity. -/
inductive Work (t : SymbolTable) (α : Type) where
  | outer (plan : Plan t α)
  | inner (key : Key t) (plan : Plan t Nat) (waiting : Waiting t α)

namespace Waiting

/-- Go on with an answer.  An error is passed on. -/
def resume : Waiting t α → Except Error Nat → Work t α
  | .call next, answer => .outer (Plan.ofExcept answer >>= next)
  | .rule key next outer, answer => .inner key (Plan.ofExcept answer >>= next) outer

def keys : Waiting t α → List (Key t)
  | .call _ => []
  | .rule key _ outer => key :: outer.keys

end Waiting

namespace Work

def keys : Work t α → List (Key t)
  | .outer _ => []
  | .inner key _ waiting => key :: waiting.keys

def asked? : Work t α → Option (Key t)
  | .outer (.ask key _) => some key
  | .inner _ (.ask key _) _ => some key
  | _ => none

def outcome? : Work t α → Option (Except Error α)
  | .outer (.done a) => some (.ok a)
  | .outer (.fail e) => some (.error e)
  | _ => none

/-- A question: it is answered from the marks, or its computation begins. -/
def question (key : Key t) (waiting : Waiting t α) (r : Resolver t) :
    Work t α × Resolver t :=
  match r.mark? key with
  | some (.done n) => (waiting.resume (.ok n), r.note key)
  | some .inProgress => (waiting.resume (.error (r.circle key)), r.note key)
  | none => (.inner key (Plan.rule key) waiting, (r.note key).enter key)

/-- The next thing that happens.  A call at its end stays there. -/
def step : Work t α → Resolver t → Work t α × Resolver t
  | .outer (.ask key next), r => question key (.call next) r
  | .inner own (.ask key next) waiting, r => question key (.rule own next waiting) r
  | .inner own (.done n) waiting, r => (waiting.resume (.ok n), r.finish own n)
  | .inner own (.fail e) waiting, r => (waiting.resume (.error e), r.abandon own)
  | .outer (.done a), r => (.outer (.done a), r)
  | .outer (.fail e), r => (.outer (.fail e), r)

def advance (state : Work t α × Resolver t) : Work t α × Resolver t := state.1.step state.2

end Work

@[simp] theorem Waiting.keys_resume (waiting : Waiting t α) (answer : Except Error Nat) :
    (waiting.resume answer).keys = waiting.keys := by
  cases waiting <;> rfl

namespace Work

theorem outcome?_outer (outcome : Except Error α) :
    (.outer (Plan.ofExcept outcome) : Work t α).outcome? = some outcome := by
  cases outcome <;> rfl

theorem advance_of_outcome? {work : Work t α} {outcome : Except Error α}
    (h : work.outcome? = some outcome) (r : Resolver t) :
    advance (work, r) = (work, r) := by
  rcases work with (a | e | ⟨key, next⟩) | ⟨key, plan, waiting⟩
  · rfl
  · rfl
  · cases h
  · cases h

end Work

/-! ### The steps of a resolver -/

open Plan Resolver

theorem Resolver.Trusted.known_of_query {depth : Nat} {key : Key t} {r : Resolver t}
    (hr : Trusted r) (hroom : Roomy depth r.stack) (hleads : Leads r.stack key) {n : Nat}
    (h : (query depth key r).1 = .ok n) : Known key n := by
  rw [(query_spec key hr hroom hleads).1] at h
  exact known_of_answer h

theorem Resolver.Trusted.mark?_ne_inProgress {r : Resolver t} (hr : Trusted r)
    (hstack : r.stack = []) (key : Key t) : r.mark? key ≠ some .inProgress := by
  intro hprogress
  have hmem := (hr.inProgress_iff key).mp hprogress
  rw [hstack] at hmem
  cases hmem

namespace Work

/-- Carrying out a plan, if `ask` gives what the questions of the plan come to.  `place`
    says where the plan stands and `wait` what waits for an answer. -/
theorem comes_carryOut {β : Type} {ask : Key t → Resolver t → Answer t Nat}
    {inv : Resolver t → Prop} (place : Plan t β → Work t α)
    (wait : (Nat → Plan t β) → Waiting t α)
    (hstep : ∀ key next r, (place (.ask key next)).step r = question key (wait next) r)
    (hresume : ∀ next answer, (wait next).resume answer =
      place (ofExcept answer >>= next)) {plan : Plan t β}
    (hask : ∀ key r, Asks Known plan key → inv r →
      (∀ waiting : Waiting t α, Comes advance (question key waiting r)
        (waiting.resume (ask key r).1, (ask key r).2)) ∧ inv (ask key r).2 ∧
      ∀ n, (ask key r).1 = .ok n → Known key n) {r : Resolver t} (hr : inv r) :
    Comes advance (place plan, r) (place (ofExcept (carryOut ask plan r).1),
        (carryOut ask plan r).2) := by
  induction plan generalizing r with
  | done b => exact Comes.refl _ _
  | fail e => exact Comes.refl _ _
  | ask key next ih =>
    obtain ⟨hcomes, hinv, hknown⟩ := hask key r (Or.inl rfl) hr
    have hfirst := Comes.single advance (place (.ask key next), r)
    rw [advance, hstep] at hfirst
    have hanswer := hfirst.trans (hcomes (wait next))
    rw [hresume] at hanswer
    apply hanswer.trans
    rcases hout : ask key r with ⟨outcome, after⟩
    rw [hout] at hinv hknown
    cases outcome with
    | ok n =>
      simp only [carryOut, hout]
      exact ih n (fun k r' hk => hask k r' (Or.inr ⟨n, hknown n rfl, hk⟩)) hinv
    | error e =>
      simp only [carryOut, hout]
      exact Comes.refl _ _

/-- **What a question comes to** without a limit is what the resolver answers within its
    limit. -/
theorem comes_query {depth : Nat} {key : Key t} {r : Resolver t} (hr : Trusted r)
    (hroom : Roomy depth r.stack) (hleads : Leads r.stack key) (waiting : Waiting t α) :
    Comes advance (question key waiting r)
      (waiting.resume (query depth key r).1, (query depth key r).2) := by
  induction depth generalizing key r waiting with
  | zero => exact (not_roomy_zero hroom).elim
  | succ depth ih =>
    cases hmark : r.mark? key with
    | some progress =>
      cases progress with
      | done n =>
        simp only [question, query, mark?_note, hmark]
        exact Comes.refl _ _
      | inProgress =>
        have hcircle : (r.note key).circle key = r.circle key := by simp [circle]
        simp only [question, query, mark?_note, hmark, hcircle]
        exact Comes.refl _ _
    | none =>
      have hkey : key ∉ r.stack := hr.notMem_stack hmark
      have hask : ∀ k r', Asks Known (rule key) k → Trusted r' ∧ r'.stack = key :: r.stack →
          (∀ waiting : Waiting t α, Comes advance (question k waiting r')
              (waiting.resume (query depth k r').1, (query depth k r').2)) ∧
            (Trusted (query depth k r').2 ∧ (query depth k r').2.stack = key :: r.stack) ∧
            ∀ n, (query depth k r').1 = .ok n → Known k n := by
        rintro k r' hk ⟨hr', hstack'⟩
        have hroom' : Roomy depth r'.stack := by
          rw [hstack']
          exact hroom.push hkey
        have hleads' : Leads r'.stack k := by
          rw [hstack']
          exact hleads.push hk
        obtain ⟨_, htrusted, hstack⟩ := query_spec k hr' hroom' hleads'
        exact ⟨ih hr' hroom' hleads', ⟨htrusted, hstack.trans hstack'⟩, fun n =>
            hr'.known_of_query hroom' hleads'⟩
      have henter : Trusted ((r.note key).enter key) :=
        (hr.note key).enter (by simpa using hkey)
      have hrule := comes_carryOut (fun plan => Work.inner key plan waiting)
        (fun next => Waiting.rule key next waiting) (fun _ _ _ => rfl) (fun _ _ => rfl)
        hask ⟨henter, by simp⟩
      have hquestion : question key waiting r =
          (.inner key (rule key) waiting, (r.note key).enter key) := by
        simp only [question, hmark]
      rw [hquestion]
      apply hrule.trans
      -- the last step leaves the computation
      rcases hout : carryOut (query depth) (rule key) ((r.note key).enter key)
        with ⟨outcome, after⟩
      cases outcome with
      | ok n =>
        simp only [query, mark?_note, hmark, hout]
        exact Comes.single advance (.inner key (.done n) waiting, after)
      | error e =>
        simp only [query, mark?_note, hmark, hout]
        exact Comes.single advance (.inner key (.fail e) waiting, after)

/-- The steps of a call lead to the result that the resolver gives at once, and to the
    same resolver. -/
theorem comes_run {r : Resolver t} (hr : Idle r) (plan : Plan t α) :
    Comes advance (.outer plan, r) (.outer (ofExcept (r.run plan).1), (r.run plan).2) := by
  refine comes_carryOut Work.outer Waiting.call (fun _ _ _ => rfl) (fun _ _ => rfl) ?_ hr
  rintro key r' _ ⟨hr', hstack⟩
  have hroom : Roomy (depthLimit t) r'.stack := by
    rw [hstack]
    exact roomy_start
  have hleads : Leads r'.stack key := by
    rw [hstack]
    intro k hk
    cases hk
  obtain ⟨_, htrusted, hstack'⟩ := query_spec key hr' hroom hleads
  exact ⟨comes_query hr' hroom hleads, ⟨htrusted, hstack'.trans hstack⟩, fun n =>
      hr'.known_of_query hroom hleads⟩

end Work

/-! ### What every step keeps -/

/-- What waits for a quantity ends in a known number, if it is given the known number of
    the quantity. -/
def Waiting.Sound : Waiting t α → Key t → Prop
  | .call _, _ => True
  | .rule key next outer, asked =>
    (∀ n m, Known asked n → Yields Known (next n) m → Known key m) ∧ outer.Sound key

def Work.Sound : Work t α → Prop
  | .outer _ => True
  | .inner key plan waiting => (∀ m, Yields Known plan m → Known key m) ∧ waiting.Sound key

theorem Waiting.Sound.resume {waiting : Waiting t α} {key : Key t} (h : waiting.Sound key)
    {answer : Except Error Nat} (hanswer : ∀ n, answer = .ok n → Known key n) :
    (waiting.resume answer).Sound := by
  cases waiting with
  | call next => trivial
  | rule own next outer =>
    refine ⟨?_, h.2⟩
    intro m hm
    obtain ⟨n, hn, hm⟩ := yields_bind.mp hm
    exact h.1 n m (hanswer n (yields_ofExcept.mp hn)) hm

/-- The marks can be trusted, and the stack holds the computations that the work is in. -/
structure Orderly (work : Work t α) (r : Resolver t) : Prop where
  trusted : r.Trusted
  stack_eq : r.stack = work.keys
  sound : work.Sound

namespace Orderly

variable {work : Work t α} {r : Resolver t} {key : Key t} {n : Nat}

theorem outer_of_idle (hr : Idle r) (plan : Plan t α) : Orderly (.outer plan) r :=
  ⟨hr.trusted, hr.stack_nil, trivial⟩

/-- A question keeps order, whether its answer is kept or its computation begins. -/
theorem question {waiting : Waiting t α} (hr : r.Trusted)
    (hstack : r.stack = waiting.keys) (hsound : waiting.Sound key) :
    Orderly (Work.question key waiting r).1 (Work.question key waiting r).2 := by
  have hnote := hr.note key
  unfold Work.question
  cases hmark : r.mark? key with
  | some progress =>
    cases progress with
    | done n =>
      refine ⟨hnote, by simpa using hstack, hsound.resume ?_⟩
      rintro _ ⟨⟩
      exact hr.known_of_done key n hmark
    | inProgress =>
      refine ⟨hnote, by simpa using hstack, hsound.resume ?_⟩
      intro n hn
      cases hn
  | none =>
    have hkey : key ∉ r.stack := hr.notMem_stack hmark
    refine ⟨hnote.enter (by simpa using hkey), by simp [Work.keys, hstack], ?_, hsound⟩
    intro m hm
    exact known_iff.mpr hm

/-- **One step keeps the order.** -/
theorem step (h : Orderly work r) : Orderly (work.step r).1 (work.step r).2 := by
  obtain ⟨hr, hstack, hsound⟩ := h
  rcases work with (a | e | ⟨key, next⟩) | ⟨own, n | e | ⟨key, next⟩, waiting⟩
  · exact ⟨hr, hstack, trivial⟩
  · exact ⟨hr, hstack, trivial⟩
  · exact question hr hstack trivial
  · have hn : Known own n := hsound.1 n rfl
    have hleave : (r.finish own n).stack = (waiting.resume (.ok n)).keys := by
      rw [stack_finish, hstack, Waiting.keys_resume]
      rfl
    refine ⟨hr.finish hstack hn, hleave, hsound.2.resume ?_⟩
    rintro _ ⟨⟩
    exact hn
  · have hleave : (r.abandon own).stack = (waiting.resume (.error e)).keys := by
      rw [stack_abandon, hstack, Waiting.keys_resume]
      rfl
    refine ⟨hr.abandon hstack, hleave, hsound.2.resume ?_⟩
    intro n hn
    cases hn
  · refine question hr hstack ⟨?_, hsound.2⟩
    intro n m hn hm
    exact hsound.1 m ⟨n, hn, hm⟩

theorem of_comes {a b : Work t α × Resolver t} (h : Orderly a.1 a.2)
    (hab : Comes Work.advance a b) : Orderly b.1 b.2 := by
  refine hab.invariant (P := fun state => Orderly state.1 state.2) ?_ h
  intro state hstate
  exact hstate.step

/-- What is done is neither entered again nor left, because what is entered has no mark
    and what is left is in progress. -/
theorem done_step (h : Orderly work r) {k : Key t} (hdone : r.mark? k = some (.done n)) :
    (work.step r).2.mark? k = some (.done n) := by
  have hquestion : ∀ (key : Key t) (waiting : Waiting t α),
      (Work.question key waiting r).2.mark? k = some (.done n) := by
    intro key waiting
    unfold Work.question
    cases hmark : r.mark? key with
    | some progress => cases progress <;> simpa using hdone
    | none =>
      have hne : k ≠ key := by
        rintro rfl
        rw [hmark] at hdone
        cases hdone
      simpa [mark?_enter, hne] using hdone
  have hleft : ∀ {own : Key t} {rest : List (Key t)}, r.stack = own :: rest → k ≠ own := by
    rintro own rest hstack rfl
    have hprogress := (h.trusted.inProgress_iff k).mpr (by simp [hstack])
    rw [hdone] at hprogress
    cases hprogress
  rcases work with (a | e | ⟨key, next⟩) | ⟨own, m | e | ⟨key, next⟩, waiting⟩
  · exact hdone
  · exact hdone
  · exact hquestion key (.call next)
  · simpa [Work.step, mark?_finish, hleft h.stack_eq] using hdone
  · simpa [Work.step, mark?_abandon, hleft h.stack_eq] using hdone
  · exact hquestion key (.rule own next waiting)

end Orderly

/-! ### Histories of calls -/

abbrev Returned (t : SymbolTable) : Type := (call : Call t) × Except Error call.Result

/-- A state of a resolver on which calls are made, one after another. -/
structure Moment (t : SymbolTable) where
  resolver : Resolver t
  /-- The call that is being carried out, and where it stands; there is none between two
      calls. -/
  current : Option ((call : Call t) × Work t call.Result) := none
  /-- The calls to come. -/
  calls : List (Call t) := []
  returned : List (Returned t) := []

namespace Moment

/-- The next thing that happens: a call begins, goes on or returns. -/
def next (m : Moment t) : Moment t :=
  match m.current with
  | none =>
    match m.calls with
    | [] => m
    | call :: later => { m with current := some ⟨call, .outer call.plan⟩, calls := later }
  | some ⟨call, work⟩ =>
    match work.outcome? with
    | some outcome =>
      { m with current := none, returned := m.returned ++ [⟨call, outcome⟩] }
    | none =>
      { m with
        resolver := (work.step m.resolver).2,
        current := some ⟨call, (work.step m.resolver).1⟩ }

def after (selection : Selection) (calls : List (Call t)) (n : Nat) : Moment t :=
  next^[n] { resolver := { selection := selection }, calls := calls }

def computing (m : Moment t) : List (Key t) :=
  match m.current with
  | none => []
  | some ⟨_, work⟩ => work.keys

def asked? (m : Moment t) : Option (Key t) := m.current.bind fun current => current.2.asked?

end Moment

def Resolver.results (r : Resolver t) : List (Call t) → List (Returned t)
  | [] => []
  | call :: rest => ⟨call, r.result call⟩ :: (r.run call.plan).2.results rest

theorem Resolver.after_concat (r : Resolver t) (earlier : List (Call t)) (call : Call t) :
    r.after (earlier ++ [call]) = ((r.after earlier).run call.plan).2 := by
  induction earlier generalizing r with
  | nil => rfl
  | cons first earlier ih => exact ih (r.run first.plan).2

theorem Resolver.results_concat (r : Resolver t) (earlier : List (Call t))
    (call : Call t) :
    r.results (earlier ++ [call]) = r.results earlier ++
      [⟨call, (r.after earlier).result call⟩] := by
  induction earlier generalizing r with
  | nil => rfl
  | cons first earlier ih => exact congrArg (List.cons _) (ih (r.run first.plan).2)

namespace Moment

/-- A moment in a history of calls that began with the resolver `first`: between two
    calls, or during one. -/
inductive Accounts (first : Resolver t) : List (Call t) → Moment t → Prop
  | between (earlier later : List (Call t)) :
      Accounts first (earlier ++ later)
        ⟨first.after earlier, none, later, first.results earlier⟩
  | during (earlier : List (Call t)) (call : Call t) (later : List (Call t))
      {work : Work t call.Result} {r : Resolver t}
      (h : Comes Work.advance (.outer call.plan, first.after earlier) (work, r)) :
      Accounts first (earlier ++ call :: later)
        ⟨r, some ⟨call, work⟩, later, first.results earlier⟩

variable {first : Resolver t} {calls : List (Call t)} {m : Moment t}

theorem next_of_running {r : Resolver t} {call : Call t} {work : Work t call.Result}
    {later : List (Call t)} {returned : List (Returned t)} (h : work.outcome? = none) :
    next ⟨r, some ⟨call, work⟩, later, returned⟩ =
      ⟨(work.step r).2, some ⟨call, (work.step r).1⟩, later, returned⟩ := by
  simp only [next, h]

theorem next_of_ended {r : Resolver t} {call : Call t} {work : Work t call.Result}
    {later : List (Call t)} {returned : List (Returned t)}
    {outcome : Except Error call.Result} (h : work.outcome? = some outcome) :
    next ⟨r, some ⟨call, work⟩, later, returned⟩ =
      ⟨r, none, later, returned ++ [⟨call, outcome⟩]⟩ := by
  simp only [next, h]

/-- Every step leads from one moment of the history to the next. -/
theorem Accounts.next (hfirst : Idle first) (h : Accounts first calls m) :
    Accounts first calls m.next := by
  cases h with
  | between earlier later =>
    cases later with
    | nil => exact .between earlier []
    | cons call later => exact .during earlier call later (Comes.refl _ _)
  | @during earlier call later work r h =>
    cases hend : work.outcome? with
    | none =>
      rw [next_of_running hend]
      exact .during earlier call later (h.trans (Comes.single _ _))
    | some outcome =>
      have hrun := Work.comes_run (hfirst.after earlier) call.plan
      have hresult := Work.outcome?_outer (t := t) ((first.after earlier).run call.plan).1
      obtain ⟨rfl, rfl⟩ := Prod.mk.inj (h.end_unique hrun (Work.advance_of_outcome? hend r)
        (Work.advance_of_outcome? hresult _))
      obtain rfl := Option.some.inj (hend.symm.trans hresult)
      rw [next_of_ended hend, ← Resolver.result, ← Resolver.results_concat,
          ← Resolver.after_concat]
      rw [← List.singleton_append, ← List.append_assoc]
      exact .between (earlier ++ [call]) later

theorem after_succ (selection : Selection) (calls : List (Call t)) (n : Nat) :
    after selection calls (n + 1) = (after selection calls n).next :=
  Function.iterate_succ_apply' next n _

/-- Every moment belongs to the history of the calls. -/
theorem accounts_after (selection : Selection) (calls : List (Call t)) (n : Nat) :
    Accounts { selection := selection } calls (after selection calls n) := by
  induction n with
  | zero => exact .between [] calls
  | succ n ih =>
    rw [after_succ]
    exact ih.next (Reached.fresh selection).idle

/-! ### The bookkeeping -/

/-- At every moment the marks can be trusted, and the stack is the computations that are
    going on. -/
theorem Accounts.trusted (hfirst : Idle first) (h : Accounts first calls m) :
    m.resolver.Trusted ∧ m.resolver.stack = m.computing := by
  cases h with
  | between earlier later =>
    have hidle := hfirst.after earlier
    exact ⟨hidle.trusted, hidle.stack_nil⟩
  | during earlier call later h =>
    have horderly := (Orderly.outer_of_idle (hfirst.after earlier) call.plan).of_comes h
    exact ⟨horderly.trusted, horderly.stack_eq⟩

theorem Accounts.done_next (hfirst : Idle first) (h : Accounts first calls m)
    {key : Key t} {v : Nat} (hdone : m.resolver.mark? key = some (.done v)) :
    m.next.resolver.mark? key = some (.done v) := by
  cases h with
  | between earlier later => cases later <;> exact hdone
  | @during earlier call later work r h =>
    have horderly := (Orderly.outer_of_idle (hfirst.after earlier) call.plan).of_comes h
    cases hend : work.outcome? with
    | none =>
      rw [next_of_running hend]
      exact horderly.done_step hdone
    | some outcome =>
      rw [next_of_ended hend]
      exact hdone

/-- What has been computed at some moment stays computed. -/
theorem done_after {selection : Selection} {n later : Nat} (hle : n ≤ later) {key : Key t}
    {v : Nat} (hdone : (after selection calls n).resolver.mark? key = some (.done v)) :
    (after selection calls later).resolver.mark? key = some (.done v) := by
  induction hle with
  | refl => exact hdone
  | @step later _ ih =>
    rw [after_succ]
    exact (accounts_after selection calls later).done_next (Reached.fresh selection).idle ih

/-- The marks and the stack at a moment: they agree, whatever is asked for while it is
    being computed is found on the stack, and between two calls nothing is being
    computed. -/
structure InOrder (m : Moment t) : Prop where
  inProgress_iff : ∀ key, m.resolver.mark? key = some .inProgress ↔ key ∈ m.resolver.stack
  nodup : m.resolver.stack.Nodup
  found : ∀ key, m.asked? = some key → m.resolver.mark? key = some .inProgress →
    ∃ inner outer, m.resolver.stack = inner ++ key :: outer ∧ key ∉ inner ∧
      m.resolver.circle key = .cycle
        (dropRepeats ((key :: inner.reverse).map fun k => (t.get k.id).name) ++
          [(t.get key.id).name])
  restored : m.current = none →
    m.resolver.stack = [] ∧ ∀ key, m.resolver.mark? key ≠ some .inProgress

theorem Accounts.inOrder (hfirst : Idle first) (h : Accounts first calls m) :
    m.InOrder := by
  obtain ⟨htrusted, hstack⟩ := h.trusted hfirst
  refine ⟨htrusted.inProgress_iff, htrusted.nodup, ?_, ?_⟩
  · intro key _ hprogress
    obtain ⟨inner, outer, hsplit, hinner⟩ :=
      List.eq_append_cons_of_mem ((htrusted.inProgress_iff key).mp hprogress)
    refine ⟨inner, outer, hsplit, hinner, ?_⟩
    rw [circle, hsplit, takeWhile_ne_append_cons hinner]
  · intro hnone
    have hnil : m.resolver.stack = [] := by
      rw [hstack, computing, hnone]
    exact ⟨hnil, htrusted.mark?_ne_inProgress hnil⟩

theorem Accounts.between_calls (h : Accounts first calls m) (hnone : m.current = none) :
    ∃ earlier, calls = earlier ++ m.calls ∧ m.resolver = first.after earlier ∧
      m.returned = first.results earlier := by
  cases h with
  | between earlier later => exact ⟨earlier, rfl, rfl, rfl⟩
  | during => cases hnone

/-- **The bookkeeping is restored by every call.**  At every moment of every history of
    calls the quantities in progress are those on the stack, once each, and a circle is
    cut out of the stack where the quantity that is asked for stands.  After a call has
    returned, with a number or with an error, the stack is empty and nothing is in
    progress; and what was done at a moment is done at all later ones. -/
theorem bookkeeping_restored (t : SymbolTable) (selection : Selection)
    (calls : List (Call t)) (n : Nat) :
    (after selection calls n).InOrder ∧
      ((after selection calls n).current = none →
        ∃ earlier, calls = earlier ++ (after selection calls n).calls ∧
          (after selection calls n).resolver =
            ({ selection := selection } : Resolver t).after earlier ∧
          (after selection calls n).returned =
            ({ selection := selection } : Resolver t).results earlier) ∧
      (∀ key v, (after selection calls n).resolver.mark? key = some (.done v) →
        ∀ later, n ≤ later →
          (after selection calls later).resolver.mark? key = some (.done v)) ∧
      (({ selection := selection } : Resolver t).after calls).stack = [] ∧
      ∀ key, (({ selection := selection } : Resolver t).after calls).mark? key ≠
        some .inProgress := by
  have hfresh := (Reached.fresh (t := t) selection).idle
  have haccounts := accounts_after selection calls n
  have hidle := hfresh.after calls
  refine ⟨haccounts.inOrder hfresh, haccounts.between_calls, ?_, hidle.stack_nil, ?_⟩
  · intro key v hdone later hle
    exact done_after hle hdone
  · exact hidle.trusted.mark?_ne_inProgress hidle.stack_nil

/-- A struct that holds itself after a field as wide as the parameter says. -/
def tailTable : SymbolTable where
  decls :=
    [.struct { name := "tail_t", fields :=
       [{ name := "head", type := .logic (.ref "N" .value) },
        { name := "rest", type := .named "tail_t" }] },
     .parameter { name := "N", value := .literal 3 }]

/-- The circle is closed when one field of the struct has been added.  The struct is left
    without a mark, and what it had found out is kept. -/
theorem tailTable_bookkeeping :
    let calls : List (Call tailTable) := [.widthOf ⟨0, by decide⟩, .widthOf ⟨1, by decide⟩]
    (after .off calls 4).asked? = some ⟨⟨0, by decide⟩, .width⟩ ∧
      (after .off calls 4).resolver.stack = [⟨⟨0, by decide⟩, .width⟩] ∧
      (∃ inner outer, (after .off calls 4).resolver.stack =
        inner ++ ⟨⟨0, by decide⟩, .width⟩ :: outer ∧ ⟨⟨0, by decide⟩, .width⟩ ∉ inner) ∧
      (after .off calls 7).current = none ∧ (after .off calls 7).resolver.stack = [] ∧
      (after .off calls 7).resolver.mark? ⟨⟨1, by decide⟩, .value⟩ = some (.done 3) := by
  intro calls
  have hasked : (after .off calls 4).asked? = some ⟨⟨0, by decide⟩, .width⟩ := rfl
  have hmark : (after .off calls 4).resolver.mark? ⟨⟨0, by decide⟩, .width⟩ =
      some .inProgress := by decide
  have hdone : (after .off calls 4).resolver.mark? ⟨⟨1, by decide⟩, .value⟩ =
      some (.done 3) := by decide
  obtain ⟨hfour, _, hkept, _⟩ := bookkeeping_restored tailTable .off calls 4
  obtain ⟨hseven, _⟩ := bookkeeping_restored tailTable .off calls 7
  obtain ⟨inner, outer, hsplit, hinner, _⟩ := hfour.found _ hasked hmark
  exact ⟨hasked, by decide, ⟨inner, outer, hsplit, hinner⟩, rfl, (hseven.restored rfl).1,
      hkept _ 3 hdone 7 (by decide)⟩

end Moment

end WireSchema
