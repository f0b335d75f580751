import Mathlib.Algebra.Order.Ring.Nat
import Mathlib.Order.Bounds.Defs
import WireSchema.Number

/-!
# Words and numbers of bits

The range checks of words as statements about integers, and the numbers of bits as least
exponents.
-/

namespace WireSchema

theorem wordLimit_pos : 0 < wordLimit := by decide

/-- Words are the integers from zero up to the limit. -/
theorem word?_eq_some_iff {z : Int} {n : Nat} :
    word? z = some n ↔ z = n ∧ n < wordLimit := by
  unfold word?
  split
  · rename_i h
    simp only [Option.some.injEq]
    omega
  · rename_i h
    simp only [reduceCtorEq, false_iff]
    omega

theorem isSigned64_iff {z : Int} : isSigned64 z = true ↔ -2 ^ 63 ≤ z ∧ z < 2 ^ 63 := by
  have hlimit : (signedLimit : Int) = 2 ^ 63 := by decide
  rw [isSigned64, hlimit, Bool.and_eq_true, decide_eq_true_eq, decide_eq_true_eq]

/-- A signed word is below the limit of unsigned words. -/
theorem lt_wordLimit_of_isSigned64 {z : Int} (h : isSigned64 z = true) :
    z < (wordLimit : Int) := by
  simp only [isSigned64, Bool.and_eq_true, decide_eq_true_eq] at h
  have hlimit : signedLimit ≤ wordLimit := by decide
  omega

/-! ### Numbers of bits -/

/-- A number fits in as many bits as it has binary digits, and in no fewer. -/
theorem bits_le_iff {n w : Nat} : bits n ≤ w ↔ n < 2 ^ w := by
  unfold bits
  split
  · rename_i h
    simp [h]
  · rename_i h
    exact Nat.log2_lt h

theorem bitWidth_le_iff {v w : Nat} : bitWidth v ≤ w ↔ 1 ≤ w ∧ v < 2 ^ w := by
  rw [bitWidth, Nat.max_le, bits_le_iff]

theorem bitWidth_pos (v : Nat) : 1 ≤ bitWidth v := (bitWidth_le_iff.mp le_rfl).1

/-- The width of a value is the least exponent, from one on, whose power of two is above
    the value. -/
theorem isLeast_bitWidth (v : Nat) : IsLeast {w | 1 ≤ w ∧ v < 2 ^ w} (bitWidth v) :=
  ⟨bitWidth_le_iff.mp le_rfl, fun _ hw => bitWidth_le_iff.mpr hw⟩

/-- The width of a word is a word. -/
theorem bitWidth_lt_wordLimit {v : Nat} (h : v < wordLimit) : bitWidth v < wordLimit := by
  have hle : bitWidth v ≤ 64 := bitWidth_le_iff.mpr ⟨by omega, h⟩
  have hlimit : 64 < wordLimit := by decide
  omega

end WireSchema
