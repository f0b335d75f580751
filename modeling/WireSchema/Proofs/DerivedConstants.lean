import Mathlib.Data.Nat.Log
import WireSchema.Proofs.Quantities

/-!
# The constants derived from a parameter

A parameter's value comes with the number of bits that represent it and the number of bits
that count up to it.  Both are logarithms, rounded up: everything said here follows from
`bits_le_iff`, by which `bits n` is the least exponent whose power of two is above `n`.

The digits of a word are what is left after its leading zeros (`bits_toNat`).  The number
after the largest 64-bit word does not fit in 64 bits, so counting up to a value is done
in a wider word.
-/

namespace WireSchema

/-! ### Logarithms -/

theorem bits_eq_clog (n : Nat) : bits n = Nat.clog 2 (n + 1) := by
  apply eq_of_forall_ge_iff
  intro w
  rw [bits_le_iff, Nat.clog_le_iff_le_pow Nat.one_lt_two, Nat.lt_iff_add_one_le]

theorem countWidth_eq_clog (v : Nat) : countWidth v = Nat.clog 2 (v + 2) :=
  bits_eq_clog (v + 1)

/-- The number of bits that count up to a value is the least exponent whose power of two
    is above the next value. -/
theorem isLeast_countWidth (v : Nat) : IsLeast {w | v + 1 < 2 ^ w} (countWidth v) :=
  ⟨bits_le_iff.mp le_rfl, fun _ hw => bits_le_iff.mpr hw⟩

theorem monotone_bits : Monotone bits := by
  intro m n hmn
  rw [bits_eq_clog, bits_eq_clog]
  exact Nat.clog_mono_right 2 (Nat.succ_le_succ hmn)

theorem monotone_bitWidth : Monotone bitWidth := by
  intro v v' h
  exact max_le_max le_rfl (monotone_bits h)

theorem monotone_countWidth : Monotone countWidth := by
  intro v v' h
  exact monotone_bits (Nat.succ_le_succ h)

theorem bitWidth_of_pos {v : Nat} (hv : 1 ≤ v) : bitWidth v = Nat.clog 2 (v + 1) := by
  rw [bitWidth, bits_eq_clog, Nat.max_eq_right]
  exact Nat.clog_pos Nat.one_lt_two (by omega)

/-- A power of two has one bit more than the number before it, if that is not zero. -/
theorem countWidth_of_isPowerOfTwo {v : Nat} (hv : 1 ≤ v) (h : (v + 1).isPowerOfTwo) :
    countWidth v = bitWidth v + 1 := by
  obtain ⟨k, hk⟩ := h
  have hbelow : bitWidth v = k := by
    rw [bitWidth_of_pos hv, hk, Nat.clog_pow 2 k Nat.one_lt_two]
  have habove : k < countWidth v := by
    rw [countWidth_eq_clog, Nat.lt_clog_iff_pow_lt Nat.one_lt_two]
    omega
  have hnext : countWidth v ≤ k + 1 := by
    rw [countWidth, bits_le_iff, hk]
    exact Nat.pow_lt_pow_right Nat.one_lt_two (Nat.lt_succ_self k)
  omega

theorem countWidth_of_not_isPowerOfTwo {v : Nat} (h : ¬ (1 ≤ v ∧ (v + 1).isPowerOfTwo)) :
    countWidth v = bitWidth v := by
  rcases Nat.eq_zero_or_pos v with rfl | hv
  · decide
  · have hpower : 2 ^ Nat.clog 2 (v + 1) ≠ v + 1 := by
      intro hpower
      exact h ⟨hv, _, hpower.symm⟩
    rw [countWidth_eq_clog, bitWidth_of_pos hv]
    exact ((Nat.clog_eq_clog_succ_iff Nat.one_lt_two).mpr hpower).symm

/-! ### Words -/

theorem toNat_clz_zero (w : Nat) : (0#w).clz.toNat = w := by
  rw [BitVec.clz_eq_iff_eq_zero.mpr rfl]
  exact Nat.mod_eq_of_lt Nat.lt_two_pow_self

/-- The number of binary digits of a word is its length without the zeros before the first
    one. -/
theorem bits_toNat {w : Nat} (x : BitVec w) : bits x.toNat = w - x.clz.toNat := by
  apply Nat.le_antisymm
  · rw [bits_le_iff]
    exact BitVec.toNat_lt_two_pow_sub_clz
  · rcases eq_or_ne x 0#w with rfl | hx
    · rw [toNat_clz_zero, Nat.sub_self]
      exact Nat.zero_le _
    · by_contra hless
      -- the digit after the leading zeros is one, so the word is at least the power of
      -- two in its place
      have hfirst := BitVec.two_pow_sub_clz_le_toNat_of_ne_zero (by omega) hx
      have hbelow : x.toNat < 2 ^ (w - 1 - x.clz.toNat) := bits_le_iff.mp (by omega)
      omega

theorem toNat_setWidth_add_one (x : BitVec 64) :
    (x.setWidth 128 + 1).toNat = x.toNat + 1 := by
  have hx := x.isLt
  rw [BitVec.toNat_add, BitVec.toNat_setWidth]
  change (x.toNat % 2 ^ 128 + 1) % 2 ^ 128 = x.toNat + 1
  omega

theorem bitWidth_toNat (x : BitVec 64) : bitWidth x.toNat = max 1 (64 - x.clz.toNat) := by
  rw [bitWidth, bits_toNat]

theorem countWidth_toNat (x : BitVec 64) :
    countWidth x.toNat = 128 - (x.setWidth 128 + 1).clz.toNat := by
  rw [countWidth, ← toNat_setWidth_add_one, bits_toNat]

/-! ### Parameters -/

open Plan in
/-- A parameter whose value is found has the constants of its value. -/
theorem run_parameter {t : SymbolTable} {r : Resolver t} (hr : r.Reached) {id : t.Id}
    {v : Nat} (h : (r.run (Plan.valueOf id)).1 = .ok v) :
    (r.run (Plan.parameter id)).1 = .ok {
      name :=
  (t.get id).name, value := v, width := bitWidth v, countWidth :=
    countWidth v, widthOne := 1,
      docs := (t.get id).docs } := by
  rw [Resolver.run_eq_ok_iff hr.idle] at h ⊢
  rw [parameter, yields_bind]
  exact ⟨v, h, rfl⟩

theorem lt_wordLimit_of_run_valueOf {t : SymbolTable} {r : Resolver t} (hr : r.Reached)
    {id : t.Id} {v : Nat} (h : (r.run (Plan.valueOf id)).1 = .ok v) : v < wordLimit := by
  rw [Resolver.run_eq_ok_iff hr.idle, Plan.valueOf, Plan.yields_ask_done] at h
  exact SymbolTable.lt_wordLimit_of_known h

/-- **The derived constants are exact logarithms.**  The width of a value is the least
    positive exponent whose power of two is above it, and its count width the least whose
    power is above the next value, which is the logarithm of the value plus two, rounded
    up.  Both grow with the value, and they differ, by one, exactly where the next value
    is a power of two and the value is not zero.

    On 64-bit words they come from the leading zeros of the word and of the next number,
    which is taken in 128 bits and so never wraps around.  A parameter whose value is
    found has these constants. -/
theorem derived_constants_exact :
    (∀ v : Nat,
      IsLeast {w | 1 ≤ w ∧ v < 2 ^ w} (bitWidth v) ∧
        IsLeast {w | v + 1 < 2 ^ w} (countWidth v) ∧
        countWidth v = Nat.clog 2 (v + 2) ∧
        (1 ≤ v → (v + 1).isPowerOfTwo → countWidth v = bitWidth v + 1) ∧
        (¬ (1 ≤ v ∧ (v + 1).isPowerOfTwo) → countWidth v = bitWidth v)) ∧
    Monotone bitWidth ∧ Monotone countWidth ∧
    (∀ x : BitVec 64,
      bitWidth x.toNat = max 1 (64 - x.clz.toNat) ∧
        (x.setWidth 128 + 1).toNat = x.toNat + 1 ∧
        countWidth x.toNat = 128 - (x.setWidth 128 + 1).clz.toNat) ∧
    ∀ (t : SymbolTable) (r : Resolver t), r.Reached → ∀ (id : t.Id) (v : Nat),
      (r.run (Plan.valueOf id)).1 = .ok v →
        v < wordLimit ∧ ∃ p, (r.run (Plan.parameter id)).1 = .ok p ∧
          p.value = v ∧ p.width = bitWidth v ∧ p.countWidth = countWidth v := by
  refine ⟨?_, monotone_bitWidth, monotone_countWidth, ?_, ?_⟩
  · intro v
    exact ⟨isLeast_bitWidth v, isLeast_countWidth v, countWidth_eq_clog v,
        countWidth_of_isPowerOfTwo, countWidth_of_not_isPowerOfTwo⟩
  · intro x
    exact ⟨bitWidth_toNat x, toNat_setWidth_add_one x, countWidth_toNat x⟩
  · intro t r hr id v hv
    exact ⟨lt_wordLimit_of_run_valueOf hr hv, _, run_parameter hr hv, rfl, rfl, rfl⟩

/-- A parameter that has the width of an array for its value; the array is as wide as a
    word allows. -/
def lastTable : SymbolTable where
  decls :=
    [.parameter { name := "LAST", value := .ref "all_t" .width },
     .typedef { name := "all_t", base := some "half_t", width := .literal 4294967297 },
     .typedef { name := "half_t", base := none, width := .literal 4294967295 }]

/-- The largest value takes 64 bits, and one more to count up to. -/
theorem lastTable_constants :
    (({} : Resolver lastTable).run (Plan.valueOf ⟨0, by decide⟩)).1 = .ok (2 ^ 64 - 1) ∧
    (2 ^ 64 - 1 + 1).isPowerOfTwo ∧ bitWidth (2 ^ 64 - 1) = 64 ∧
      countWidth (2 ^ 64 - 1) = 65 ∧
    ∃ p, (({} : Resolver lastTable).run (Plan.parameter ⟨0, by decide⟩)).1 = .ok p ∧
      p.value = 2 ^ 64 - 1 ∧
      p.width = bitWidth (2 ^ 64 - 1) ∧ p.countWidth = countWidth (2 ^ 64 - 1) := by
  obtain ⟨hexact, _, _, _, hparameter⟩ := derived_constants_exact
  have hvalue : (({} : Resolver lastTable).run (Plan.valueOf ⟨0, by decide⟩)).1 =
      .ok (2 ^ 64 - 1) := by decide
  have hpower : (2 ^ 64 - 1 + 1).isPowerOfTwo := ⟨64, by decide⟩
  have hwidth : bitWidth (2 ^ 64 - 1) = 64 := by decide
  have hcount : countWidth (2 ^ 64 - 1) = 65 := by
    rw [(hexact (2 ^ 64 - 1)).2.2.2.1 (by decide) hpower, hwidth]
  exact ⟨hvalue, hpower, hwidth, hcount,
      (hparameter lastTable {} (.fresh .off) _ _ hvalue).2⟩

end WireSchema
