import Mathlib.Data.List.Basic
import Mathlib.Data.Nat.Digits.Defs
import WireSchema.Number

/-!
# Decimal numerals

A numeral is read digit by digit from the left.  `decimalValue` is the number that the
digits denote by their places, and `IsDecimal` adds the optional sign; a decimal text is
read exactly if it is one, as the number that it denotes.  The digits in which a number is
written are read back as that number.
-/

namespace WireSchema.Text

/-- The number that decimal digits denote: the last one counts ones, the one before it
    tens, and so on. -/
def decimalValue (ds : List Char) : Nat :=
  Nat.ofDigits 10 (ds.reverse.map fun c => c.toNat - 48)

/-- A text is a decimal integer: one or more digits, after a plus or a minus sign or
    none. -/
inductive IsDecimal : List Char → Int → Prop
  | plain {ds : List Char} (hne : ds ≠ []) (hdigits : ∀ c ∈ ds, c.isDigit = true) :
      IsDecimal ds (decimalValue ds)
  | plus {ds : List Char} (hne : ds ≠ []) (hdigits : ∀ c ∈ ds, c.isDigit = true) :
      IsDecimal ('+' :: ds) (decimalValue ds)
  | minus {ds : List Char} (hne : ds ≠ []) (hdigits : ∀ c ∈ ds, c.isDigit = true) :
      IsDecimal ('-' :: ds) (-(decimalValue ds : Int))

/-! ### Reading digits -/

theorem isDigit_iff {c : Char} : c.isDigit = true ↔ 48 ≤ c.toNat ∧ c.toNat ≤ 57 := by
  change (decide (48 ≤ c.val) && decide (c.val ≤ 57)) = true ↔ _
  simp only [Bool.and_eq_true, decide_eq_true_eq, UInt32.le_iff_toNat_le]
  rfl

theorem digit?_eq_some_iff {c : Char} {d : Nat} :
    digit? 10 c = some d ↔ c.isDigit = true ∧ d = c.toNat - 48 := by
  rw [isDigit_iff]
  simp only [digit?]
  split_ifs <;> grind

theorem decimalValue_cons (c : Char) (ds : List Char) :
    decimalValue (c :: ds) = (c.toNat - 48) * 10 ^ ds.length + decimalValue ds := by
  unfold decimalValue
  rw [List.reverse_cons, List.map_append, Nat.ofDigits_append, List.length_map,
      List.length_reverse, List.map_singleton, Nat.ofDigits_singleton, Nat.mul_comm,
      Nat.add_comm]

/-- Reading digits from the left gives the number that they denote by their places. -/
theorem digitsFrom?_eq_some_iff {acc n : Nat} {cs : List Char} :
    digitsFrom? 10 acc cs = some n ↔
      (∀ c ∈ cs, c.isDigit = true) ∧ n = acc * 10 ^ cs.length + decimalValue cs := by
  induction cs generalizing acc with
  | nil =>
    simp only [digitsFrom?, decimalValue, List.reverse_nil, List.map_nil,
        Nat.ofDigits_nil, List.length_nil, Nat.pow_zero, Nat.mul_one, Nat.add_zero,
        List.not_mem_nil, false_implies, implies_true, true_and, Option.some.injEq]
    exact eq_comm
  | cons c cs ih =>
    unfold digitsFrom?
    cases hd : digit? 10 c with
    | none =>
      have hc : c.isDigit ≠ true := by
        intro hdigit
        rw [digit?_eq_some_iff.mpr ⟨hdigit, rfl⟩] at hd
        cases hd
      simp [hc]
    | some d =>
      obtain ⟨hc, rfl⟩ := digit?_eq_some_iff.mp hd
      simp only [ih, List.forall_mem_cons, hc, true_and, decimalValue_cons,
          List.length_cons, Nat.pow_succ]
      rw [Nat.add_mul, Nat.add_assoc, Nat.mul_assoc, Nat.mul_comm 10]

theorem numeral?_eq_some_iff {n : Nat} {cs : List Char} :
    numeral? 10 cs = some n ↔ cs ≠ [] ∧ (∀ c ∈ cs, c.isDigit = true) ∧
      n = decimalValue cs := by
  cases cs with
  | nil => simp [numeral?]
  | cons c cs =>
    unfold numeral?
    rw [digitsFrom?_eq_some_iff]
    simp

theorem signed?_minus (base : Nat) (cs : List Char) :
    signed? base ('-' :: cs) = (numeral? base cs).map fun n : Nat => -(n : Int) := by
  cases hread : numeral? base cs <;> simp [signed?, hread]

theorem signed?_plus (base : Nat) (cs : List Char) :
    signed? base ('+' :: cs) = (numeral? base cs).map fun n : Nat => (n : Int) := by
  cases hread : numeral? base cs <;> simp [signed?, hread]

theorem signed?_plain (base : Nat) {cs : List Char} (hminus : ∀ rest, cs ≠ '-' :: rest)
    (hplus : ∀ rest, cs ≠ '+' :: rest) :
    signed? base cs = (numeral? base cs).map fun n : Nat => (n : Int) := by
  unfold signed?
  split
  · exact absurd rfl (hminus _)
  · exact absurd rfl (hplus _)
  · cases numeral? base cs <;> rfl

/-- **An integer is read exactly from the decimal texts that denote it.** -/
theorem signed?_eq_some_iff {k : Int} {cs : List Char} :
    signed? 10 cs = some k ↔ IsDecimal cs k := by
  constructor
  · intro h
    by_cases hminus : ∃ ds, cs = '-' :: ds
    · obtain ⟨ds, rfl⟩ := hminus
      rw [signed?_minus, Option.map_eq_some_iff] at h
      obtain ⟨n, hn, rfl⟩ := h
      obtain ⟨hne, hdigits, rfl⟩ := numeral?_eq_some_iff.mp hn
      exact .minus hne hdigits
    · by_cases hplus : ∃ ds, cs = '+' :: ds
      · obtain ⟨ds, rfl⟩ := hplus
        rw [signed?_plus, Option.map_eq_some_iff] at h
        obtain ⟨n, hn, rfl⟩ := h
        obtain ⟨hne, hdigits, rfl⟩ := numeral?_eq_some_iff.mp hn
        exact .plus hne hdigits
      · rw [signed?_plain 10 (not_exists.mp hminus) (not_exists.mp hplus),
            Option.map_eq_some_iff] at h
        obtain ⟨n, hn, rfl⟩ := h
        obtain ⟨hne, hdigits, rfl⟩ := numeral?_eq_some_iff.mp hn
        exact .plain hne hdigits
  · intro h
    cases h with
    | plain hne hdigits =>
      have hread := numeral?_eq_some_iff.mpr ⟨hne, hdigits, rfl⟩
      rw [signed?_plain, hread, Option.map_some]
      -- a sign is no digit
      · rintro rest rfl
        exact absurd (hdigits '-' List.mem_cons_self) (by decide)
      · rintro rest rfl
        exact absurd (hdigits '+' List.mem_cons_self) (by decide)
    | plus hne hdigits =>
      rw [signed?_plus, numeral?_eq_some_iff.mpr ⟨hne, hdigits, rfl⟩, Option.map_some]
    | minus hne hdigits =>
      rw [signed?_minus, numeral?_eq_some_iff.mpr ⟨hne, hdigits, rfl⟩, Option.map_some]

/-! ### Reading back what is written -/

theorem digitsFrom?_append (base acc : Nat) (cs ds : List Char) :
    digitsFrom? base acc (cs ++ ds) = (digitsFrom? base acc cs).bind fun n =>
      digitsFrom? base n ds := by
  induction cs generalizing acc with
  | nil => rfl
  | cons c cs ih =>
    rw [List.cons_append, digitsFrom?, digitsFrom?]
    cases digit? base c with
    | none => rfl
    | some d => exact ih (acc * base + d)

theorem digit?_digitChar {d : Nat} (h : d < 10) : digit? 10 (Nat.digitChar d) = some d := by
  revert d
  decide

/-- A number is read back from its decimal digits. -/
theorem digitsFrom?_toDigits (n : Nat) : digitsFrom? 10 0 (Nat.toDigits 10 n) = some n := by
  induction n using Nat.strongRecOn with
  | ind n ih =>
    by_cases hsmall : n < 10
    · simp [Nat.toDigits_of_lt_base hsmall, digitsFrom?, digit?_digitChar hsmall]
    · have hlast : n % 10 < 10 := Nat.mod_lt n (by omega)
      have hsplit : Nat.toDigits 10 n = Nat.toDigits 10 (n / 10) ++
          [Nat.digitChar (n % 10)] := by
        rw [← Nat.toDigits_of_lt_base hlast, Nat.toDigits_append_toDigits (by omega)
            (by omega) hlast, Nat.div_add_mod]
      rw [hsplit, digitsFrom?_append, ih (n / 10) (by omega)]
      simp only [Option.bind_some, digitsFrom?, digit?_digitChar hlast, Option.some.injEq]
      omega

/-- A number is read back from its decimal digits. -/
theorem numeral?_toString (n : Nat) : numeral? 10 (toString n).toList = some n := by
  have hdigits : (toString n).toList = Nat.toDigits 10 n := by simp [Nat.toString_eq_repr]
  obtain ⟨first, rest, hcons⟩ := List.exists_cons_of_ne_nil (@Nat.toDigits_ne_nil n 10)
  have hread := digitsFrom?_toDigits n
  rw [hdigits]
  rw [hcons] at hread ⊢
  exact hread

/-- The text in which an integer is written denotes it. -/
theorem isDecimal_toString (k : Int) : IsDecimal (toString k).toList k := by
  cases k with
  | ofNat n =>
    obtain ⟨hne, hdigits, hvalue⟩ := numeral?_eq_some_iff.mp (numeral?_toString n)
    have hplain := IsDecimal.plain hne hdigits
    rw [← hvalue] at hplain
    exact hplain
  | negSucc n =>
    obtain ⟨hne, hdigits, hvalue⟩ := numeral?_eq_some_iff.mp (numeral?_toString (n + 1))
    have hminus := IsDecimal.minus hne hdigits
    rw [← hvalue] at hminus
    have htext : (toString (Int.negSucc n)).toList = '-' :: (toString (n + 1)).toList := by
      change ("-" ++ Nat.repr (n + 1)).toList = _
      rw [String.toList_append]
      rfl
    rw [htext]
    exact hminus

end WireSchema.Text
