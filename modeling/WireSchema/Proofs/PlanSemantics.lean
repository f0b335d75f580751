import Mathlib.Data.List.Forall2
import WireSchema.Plan
import WireSchema.Proofs.Lists
import WireSchema.Proofs.Table

/-!
# What plans say

A plan leaves open who answers its questions.  Here an answer is any relation `A` between
quantities and numbers, and a plan is read in three ways: the results it `Yields`, the
questions it `Asks` and the errors it `Raises` by itself, when its questions are answered
as `A` says.  The three readings go through sequencing, so each plan of the library gets
one lemma for each reading that is used, and no later proof opens a plan.

`follow` carries out a plan with answers that can fail; its outcome is described by the
three readings.
-/

namespace WireSchema

namespace Plan

variable {t : SymbolTable} {α β : Type} {A B : Key t → Nat → Prop}

/-! ### Three readings of a plan -/

def Yields (A : Key t → Nat → Prop) : Plan t α → α → Prop
  | .done a, b => a = b
  | .fail _, _ => False
  | .ask key next, b => ∃ n, A key n ∧ Yields A (next n) b

def Asks (A : Key t → Nat → Prop) : Plan t α → Key t → Prop
  | .done _, _ => False
  | .fail _, _ => False
  | .ask key next, k => k = key ∨ ∃ n, A key n ∧ Asks A (next n) k

/-- The plan comes to an error of its own. -/
def Raises (A : Key t → Nat → Prop) : Plan t α → Error → Prop
  | .done _, _ => False
  | .fail e, e' => e = e'
  | .ask key next, e' => ∃ n, A key n ∧ Raises A (next n) e'

/-- Carry out a plan with the given answers; the first answer that is an error is the
    end. -/
def follow (answer : Key t → Except Error Nat) : Plan t α → Except Error α
  | .done a => .ok a
  | .fail e => .error e
  | .ask key next =>
    match answer key with
    | .ok n => follow answer (next n)
    | .error e => .error e

/-! ### Sequencing -/

@[simp] theorem yields_pure {a b : α} : Yields A (pure a : Plan t α) b ↔ a = b := Iff.rfl

/-- Plans one after another end if both do, the second with the result of the first. -/
theorem yields_bind {p : Plan t α} {f : α → Plan t β} {b : β} :
    Yields A (p >>= f) b ↔ ∃ a, Yields A p a ∧ Yields A (f a) b := by
  induction p with
  | done a =>
    constructor
    · intro h
      exact ⟨a, rfl, h⟩
    · rintro ⟨_, rfl, h⟩
      exact h
  | fail e =>
    constructor
    · intro h
      exact h.elim
    · rintro ⟨_, h, _⟩
      exact h.elim
  | ask key next ih =>
    constructor
    · rintro ⟨n, hn, h⟩
      obtain ⟨a, ha, hb⟩ := (ih n).mp h
      exact ⟨a, ⟨n, hn, ha⟩, hb⟩
    · rintro ⟨a, ⟨n, hn, ha⟩, hb⟩
      exact ⟨n, hn, (ih n).mpr ⟨a, ha, hb⟩⟩

/-- A question of plans one after another is one of the first, or of the second if the
    first ends. -/
theorem asks_bind {p : Plan t α} {f : α → Plan t β} {key : Key t} :
    Asks A (p >>= f) key ↔ Asks A p key ∨ ∃ a, Yields A p a ∧ Asks A (f a) key := by
  induction p with
  | done a =>
    constructor
    · intro h
      exact Or.inr ⟨a, rfl, h⟩
    · rintro (h | ⟨_, rfl, h⟩)
      · exact h.elim
      · exact h
  | fail e =>
    constructor
    · intro h
      exact h.elim
    · rintro (h | ⟨_, h, _⟩) <;> exact h.elim
  | ask k next ih =>
    constructor
    · rintro (rfl | ⟨n, hn, h⟩)
      · exact Or.inl (Or.inl rfl)
      · rcases (ih n).mp h with h | ⟨a, ha, hk⟩
        · exact Or.inl (Or.inr ⟨n, hn, h⟩)
        · exact Or.inr ⟨a, ⟨n, hn, ha⟩, hk⟩
    · rintro ((rfl | ⟨n, hn, h⟩) | ⟨a, ⟨n, hn, ha⟩, hk⟩)
      · exact Or.inl rfl
      · exact Or.inr ⟨n, hn, (ih n).mpr (Or.inl h)⟩
      · exact Or.inr ⟨n, hn, (ih n).mpr (Or.inr ⟨a, ha, hk⟩)⟩

/-- An error of plans one after another is one of the first, or of the second if the first
    ends. -/
theorem raises_bind {p : Plan t α} {f : α → Plan t β} {e : Error} :
    Raises A (p >>= f) e ↔ Raises A p e ∨ ∃ a, Yields A p a ∧ Raises A (f a) e := by
  induction p with
  | done a =>
    constructor
    · intro h
      exact Or.inr ⟨a, rfl, h⟩
    · rintro (h | ⟨_, rfl, h⟩)
      · exact h.elim
      · exact h
  | fail e' =>
    constructor
    · intro h
      exact Or.inl h
    · rintro (h | ⟨_, h, _⟩)
      · exact h
      · exact h.elim
  | ask k next ih =>
    constructor
    · rintro ⟨n, hn, h⟩
      rcases (ih n).mp h with h | ⟨a, ha, he⟩
      · exact Or.inl ⟨n, hn, h⟩
      · exact Or.inr ⟨a, ⟨n, hn, ha⟩, he⟩
    · rintro (⟨n, hn, h⟩ | ⟨a, ⟨n, hn, ha⟩, he⟩)
      · exact ⟨n, hn, (ih n).mpr (Or.inl h)⟩
      · exact ⟨n, hn, (ih n).mpr (Or.inr ⟨a, ha, he⟩)⟩

@[simp] theorem yields_ofExcept {x : Except Error α} {a : α} :
    Yields A (ofExcept x : Plan t α) a ↔ x = .ok a := by
  cases x <;> simp [ofExcept, Yields]

@[simp] theorem asks_ofExcept {x : Except Error α} {key : Key t} :
    ¬ Asks A (ofExcept x : Plan t α) key := by
  cases x <;> simp [ofExcept, Asks]

@[simp] theorem raises_ofExcept {x : Except Error α} {e : Error} :
    Raises A (ofExcept x : Plan t α) e ↔ x = .error e := by
  cases x <;> simp [ofExcept, Raises]

@[simp] theorem yields_ask_done {key : Key t} {n : Nat} :
    Yields A (.ask key .done) n ↔ A key n := by
  simp [Yields]

/-! ### Carrying out a plan -/

/-- Carrying out a plan succeeds exactly if the plan ends under the answers that are
    given. -/
theorem follow_eq_ok_iff {answer : Key t → Except Error Nat} {p : Plan t α} {a : α} :
    follow answer p = .ok a ↔ Yields (fun key n => answer key = .ok n) p a := by
  induction p with
  | done b => simp [follow, Yields]
  | fail e => simp [follow, Yields]
  | ask key next ih =>
    cases h : answer key with
    | ok n => simp [follow, Yields, h, ih]
    | error e => simp [follow, Yields, h]

/-- A plan that is carried out fails by itself or at a question. -/
theorem follow_eq_error_iff {answer : Key t → Except Error Nat} {p : Plan t α} {e : Error} :
    follow answer p = .error e ↔
      Raises (fun key n => answer key = .ok n) p e ∨
        ∃ key, Asks (fun key n => answer key = .ok n) p key ∧ answer key = .error e := by
  induction p with
  | done b => simp [follow, Raises, Asks]
  | fail e => simp [follow, Raises, Asks]
  | ask key next ih =>
    cases h : answer key with
    | ok n =>
      simp only [follow, Raises, Asks, h, ih, Except.ok.injEq, exists_eq_left']
      constructor
      · rintro (hr | ⟨k, hk, he⟩)
        · exact Or.inl hr
        · exact Or.inr ⟨k, Or.inr hk, he⟩
      · rintro (hr | ⟨k, rfl | hk, he⟩)
        · exact Or.inl hr
        · rw [h] at he
          cases he
        · exact Or.inr ⟨k, hk, he⟩
    | error e' =>
      simp [follow, Raises, Asks, h]

/-! ### More and fewer answers -/

theorem Yields.mono (hAB : ∀ key n, A key n → B key n) {p : Plan t α} {a : α}
    (h : Yields A p a) : Yields B p a := by
  induction p with
  | done b => exact h
  | fail e => exact h
  | ask key next ih =>
    obtain ⟨n, hn, h⟩ := h
    exact ⟨n, hAB key n hn, ih n h⟩

theorem Asks.mono (hAB : ∀ key n, A key n → B key n) {p : Plan t α} {k : Key t}
    (h : Asks A p k) : Asks B p k := by
  induction p with
  | done b => exact h
  | fail e => exact h
  | ask key next ih =>
    rcases h with rfl | ⟨n, hn, h⟩
    · exact Or.inl rfl
    · exact Or.inr ⟨n, hAB key n hn, ih n h⟩

theorem Raises.mono (hAB : ∀ key n, A key n → B key n) {p : Plan t α} {e : Error}
    (h : Raises A p e) : Raises B p e := by
  induction p with
  | done b => exact h
  | fail e => exact h
  | ask key next ih =>
    obtain ⟨n, hn, h⟩ := h
    exact ⟨n, hAB key n hn, ih n h⟩

/-- A plan has one result if every question has one answer. -/
theorem Yields.unique (hA : ∀ key m n, A key m → A key n → m = n) {p : Plan t α} {a b : α}
    (ha : Yields A p a) (hb : Yields A p b) : a = b := by
  induction p with
  | done c => exact ha.symm.trans hb
  | fail e => exact ha.elim
  | ask key next ih =>
    obtain ⟨m, hm, ha⟩ := ha
    obtain ⟨n, hn, hb⟩ := hb
    obtain rfl := hA key m n hm hn
    exact ih m ha hb

/-- A plan that ends has had an answer to each of its questions. -/
theorem Asks.answered (hA : ∀ key m n, A key m → A key n → m = n)
    (hBA : ∀ key n, B key n → A key n) {p : Plan t α} {a : α} {k : Key t}
    (hk : Asks A p k) (hy : Yields B p a) : ∃ n, B k n := by
  induction p with
  | done b => exact hk.elim
  | fail e => exact hk.elim
  | ask key next ih =>
    obtain ⟨n, hn, hy⟩ := hy
    rcases hk with rfl | ⟨m, hm, hk⟩
    · exact ⟨n, hn⟩
    · -- the questions after the first depend on its answer, the same in both readings
      obtain rfl := hA key m n hm (hBA key n hn)
      exact ih m hk hy

end Plan

end WireSchema
