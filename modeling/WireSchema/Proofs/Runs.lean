import Mathlib.Logic.Function.Iterate

/-!
# Steps one after another

A computation that is taken apart into steps is a function `next` on its states.  A state
that `next` does not change is an end; a computation has at most one.
-/

namespace WireSchema

variable {σ : Type} {next : σ → σ} {a b c : σ}

def Comes (next : σ → σ) (a b : σ) : Prop := ∃ n, next^[n] a = b

namespace Comes

theorem refl (next : σ → σ) (a : σ) : Comes next a a := ⟨0, rfl⟩

theorem single (next : σ → σ) (a : σ) : Comes next a (next a) := ⟨1, rfl⟩

theorem trans (hab : Comes next a b) (hbc : Comes next b c) : Comes next a c := by
  obtain ⟨m, rfl⟩ := hab
  obtain ⟨n, rfl⟩ := hbc
  exact ⟨n + m, Function.iterate_add_apply next n m a⟩

/-- What every step keeps is kept. -/
theorem invariant {P : σ → Prop} (hstep : ∀ a, P a → P (next a)) (hab : Comes next a b)
    (ha : P a) : P b := by
  obtain ⟨n, rfl⟩ := hab
  induction n generalizing a with
  | zero => exact ha
  | succ n ih => exact ih (hstep a ha)

/-- Steps from one state end in a single state. -/
theorem end_unique (hab : Comes next a b) (hac : Comes next a c) (hb : next b = b)
    (hc : next c = c) : b = c := by
  obtain ⟨m, rfl⟩ := hab
  obtain ⟨n, rfl⟩ := hac
  -- the earlier of the two ends is also the later one
  rcases Nat.le_total m n with hle | hle
  · have hstays := Function.iterate_fixed hb (n - m)
    rw [← Function.iterate_add_apply, Nat.sub_add_cancel hle] at hstays
    exact hstays.symm
  · have hstays := Function.iterate_fixed hc (m - n)
    rw [← Function.iterate_add_apply, Nat.sub_add_cancel hle] at hstays
    exact hstays

end Comes

end WireSchema
