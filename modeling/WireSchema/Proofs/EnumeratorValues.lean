import WireSchema.Proofs.Resolution

/-!
# The values of enumerators

An enumerator without a value continues from the one before it.  The loop over the
enumerators carries the last value along; `valueAt` says the same without the loop: an
enumerator counts on from the last written value up to it, or from zero if there is none.
The two agree step by step (`enumeratorValue_previousAt`), and the two checks that the
loop makes on every value are one: it must not be negative and must be below
`2 ^ min width 64`.
-/

namespace WireSchema

namespace Plan

/-! ### Counting on -/

def written? (vs : List Enumerator) (i : Nat) : Option Int := vs[i]?.bind fun v => v.value

/-- The last position up to `i` for which a value is written. -/
def lastWritten? (vs : List Enumerator) (i : Nat) : Option Nat :=
  (List.range (i + 1)).reverse.find? fun j => (written? vs j).isSome

/-- The value of the enumerator at `i`: the last value that is written up to it and the
    steps from there, or `i` itself if none is written. -/
def valueAt (vs : List Enumerator) (i : Nat) : Int :=
  match lastWritten? vs i with
  | some j => (written? vs j).getD 0 + ((i - j : Nat) : Int)
  | none => i

theorem lastWritten?_of_written {vs : List Enumerator} {i : Nat} {z : Int}
    (h : written? vs i = some z) : lastWritten? vs i = some i := by
  simp [lastWritten?, List.range_succ, h]

theorem lastWritten?_succ {vs : List Enumerator} {i : Nat}
    (h : written? vs (i + 1) = none) : lastWritten? vs (i + 1) = lastWritten? vs i := by
  rw [lastWritten?, List.range_succ, List.reverse_append, List.reverse_singleton,
      List.singleton_append, List.find?_cons_of_neg (by simp [h]), lastWritten?]

theorem le_of_lastWritten? {vs : List Enumerator} {i j : Nat}
    (h : lastWritten? vs i = some j) : j ≤ i := by
  have hmem := List.mem_of_find?_eq_some h
  rw [List.mem_reverse, List.mem_range] at hmem
  omega

theorem valueAt_of_written {vs : List Enumerator} {i : Nat} {z : Int}
    (h : written? vs i = some z) : valueAt vs i = z := by
  simp [valueAt, lastWritten?_of_written h, h]

theorem valueAt_zero {vs : List Enumerator} (h : written? vs 0 = none) :
    valueAt vs 0 = 0 := by
  simp [valueAt, lastWritten?, h]

theorem valueAt_succ {vs : List Enumerator} {i : Nat} (h : written? vs (i + 1) = none) :
    valueAt vs (i + 1) = valueAt vs i + 1 := by
  rw [valueAt, lastWritten?_succ h, valueAt]
  cases hlast : lastWritten? vs i with
  | none => simp
  | some j =>
    have hle := le_of_lastWritten? hlast
    simp only
    omega

/-- What the loop carries when it comes to `i`. -/
def previousAt (vs : List Enumerator) : Nat → Option Int
  | 0 => none
  | i + 1 => some (valueAt vs i)

theorem enumeratorValue_previousAt {vs : List Enumerator} {i : Nat} {v : Enumerator}
    (hv : vs[i]? = some v) : enumeratorValue (previousAt vs i) v = valueAt vs i := by
  have hwritten : written? vs i = v.value := by simp [written?, hv]
  cases hvalue : v.value with
  | some z =>
    rw [hvalue] at hwritten
    rw [valueAt_of_written hwritten]
    simp [enumeratorValue, hvalue]
  | none =>
    rw [hvalue] at hwritten
    cases i with
    | zero => simp [enumeratorValue, hvalue, previousAt, valueAt_zero hwritten]
    | succ i => simp [enumeratorValue, hvalue, previousAt, valueAt_succ hwritten]

/-! ### The range of values -/

def InRange (width : Nat) (z : Int) : Prop := 0 ≤ z ∧ z < ((2 ^ min width 64 : Nat) : Int)

instance (width : Nat) (z : Int) : Decidable (InRange width z) :=
  inferInstanceAs (Decidable (_ ∧ _))

theorem lt_two_pow_min_iff {n width : Nat} :
    n < 2 ^ min width 64 ↔ n < 2 ^ width ∧ n < wordLimit := by
  rcases Nat.le_total width 64 with hle | hle
  · have hpow : 2 ^ width ≤ wordLimit := Nat.pow_le_pow_right (by omega) hle
    rw [Nat.min_eq_left hle]
    omega
  · have hpow : wordLimit ≤ 2 ^ width := Nat.pow_le_pow_right (by omega) hle
    rw [Nat.min_eq_right hle, show 2 ^ 64 = wordLimit from rfl]
    omega

theorem checked_eq_some {z : Int} {width : Nat} (h : InRange width z) :
    (if fits z width then word? z else none) = some z.toNat := by
  obtain ⟨n, rfl⟩ := Int.eq_ofNat_of_zero_le h.1
  obtain ⟨hwidth, hword⟩ := lt_two_pow_min_iff.mp (Int.ofNat_lt.mp h.2)
  rw [if_pos ((fits_word_iff hword).mpr hwidth), word?_eq_some_iff]
  exact ⟨rfl, hword⟩

theorem checked_eq_none {z : Int} {width : Nat} (h : ¬ InRange width z) :
    (if fits z width then word? z else none) = none := by
  rw [Option.eq_none_iff_forall_ne_some]
  intro n hn
  split at hn
  · rename_i hfits
    obtain ⟨rfl, hword⟩ := word?_eq_some_iff.mp hn
    apply h
    have hwidth := (fits_word_iff hword).mp hfits
    exact ⟨by omega, Int.ofNat_lt.mpr (lt_two_pow_min_iff.mpr ⟨hwidth, hword⟩)⟩
  · cases hn

/-! ### The loop -/

def numbered (vs : List Enumerator) (i : Nat) (v : Enumerator) : Resolved.Enumerator where
  name := v.name
  value := (valueAt vs i).toNat
  docs := v.docs

variable {enum : String} {width : Nat} {vs done rest : List Enumerator}
  {v : Enumerator} {i : Nat}

theorem assignFrom_cons (hv : vs[i]? = some v) (h : InRange width (valueAt vs i)) :
    assignFrom enum width (previousAt vs i) (v :: rest) =
      (assignFrom enum width (previousAt vs (i + 1)) rest).map (numbered vs i v :: ·) := by
  rw [assignFrom, enumeratorValue_previousAt hv, checked_eq_some h, previousAt]
  cases assignFrom enum width (some (valueAt vs i)) rest <;> rfl

theorem assignFrom_misfit (hv : vs[i]? = some v) (h : ¬ InRange width (valueAt vs i)) :
    assignFrom enum width (previousAt vs i) (v :: rest) =
      .error (.enumeratorOverflow enum v.name (valueAt vs i) width) := by
  rw [assignFrom, enumeratorValue_previousAt hv, checked_eq_none h]

/-- While values are in range, the loop goes on with what is left. -/
theorem assignFrom_append (hvs : vs = done ++ rest)
    (h : ∀ k < done.length, InRange width (valueAt vs k)) :
    assignFrom enum width none vs =
      (assignFrom enum width (previousAt vs done.length) rest).map
        (done.mapIdx (numbered vs) ++ ·) := by
  -- from the right: what the loop has done grows by one enumerator at a time
  induction done using List.reverseRecOn generalizing rest with
  | nil =>
    rw [List.nil_append] at hvs
    subst hvs
    cases hall : assignFrom enum width none vs <;> simp [previousAt, hall, Except.map]
  | append_singleton done v ih =>
    rw [List.append_assoc, List.singleton_append] at hvs
    rw [List.length_append, List.length_singleton] at h ⊢
    have hv : vs[done.length]? = some v := by simp [hvs]
    have hrange : InRange width (valueAt vs done.length) := h done.length (by omega)
    rw [ih hvs fun k hk => h k (by omega), assignFrom_cons hv hrange]
    cases assignFrom enum width (previousAt vs (done.length + 1)) rest <;>
      simp [Except.map, List.mapIdx_concat]

theorem assignFrom_of_inRange (h : ∀ k < vs.length, InRange width (valueAt vs k)) :
    assignFrom enum width none vs = .ok (vs.mapIdx (numbered vs)) := by
  rw [assignFrom_append (List.append_nil vs).symm h]
  simp [assignFrom, Except.map]

theorem assignFrom_first_misfit (hi : i < vs.length)
    (hfirst : ∀ k < i, InRange width (valueAt vs k))
    (hmisfit : ¬ InRange width (valueAt vs i)) :
    assignFrom enum width none vs =
      .error (.enumeratorOverflow enum vs[i].name (valueAt vs i) width) := by
  have hsplit : vs = vs.take i ++ vs[i] :: vs.drop (i + 1) := by simp
  have hlength : (vs.take i).length = i := by
    rw [List.length_take]
    omega
  have hbefore : ∀ k < (vs.take i).length, InRange width (valueAt vs k) := by
    rw [hlength]
    exact hfirst
  rw [assignFrom_append hsplit hbefore, hlength,
      assignFrom_misfit (List.getElem?_eq_getElem hi) hmisfit]
  rfl

theorem assignFrom_isOk_iff :
    (∃ ws, assignFrom enum width none vs = .ok ws) ↔
      ∀ i < vs.length, InRange width (valueAt vs i) := by
  constructor
  · rintro ⟨ws, hws⟩ i hi
    -- below the first misfit everything is in range, and the loop would have stopped there
    induction i using Nat.strong_induction_on with
    | _ i ih =>
      by_contra hmisfit
      have hbelow : ∀ k < i, InRange width (valueAt vs k) := fun k hk => ih k hk (by omega)
      rw [assignFrom_first_misfit hi hbelow hmisfit] at hws
      cases hws
  · intro h
    exact ⟨_, assignFrom_of_inRange h⟩

/-! ### The enumerators of an enum -/

theorem run_enumerators {t : SymbolTable} {r : Resolver t} (hr : r.Reached) {id : t.Id}
    {e : EnumDef} (hget : t.get id = .enum e) {width : Nat}
    (hwidth : (r.run (widthOf id)).1 = .ok width) :
    (r.run (enumerators id)).1 = assignFrom e.name width none e.values := by
  have hplan : enumerators id = .ask ⟨id, .width⟩ fun width =>
      ofExcept (assignFrom e.name width none e.values) := by
    unfold enumerators
    rw [hget]
    rfl
  rw [widthOf, Resolver.run_ask hr] at hwidth
  rw [hplan, (Resolver.run_spec hr.idle _).1, follow, hwidth]
  cases h : assignFrom e.name width none e.values <;> simp [ofExcept, follow, h]

/-- **The values of an enum.**  The enumerators of an enum whose width is known are given
    exactly if all their values are in range, each with its name, its value and its
    documentation and in the order of declaration; otherwise the first one that is out of
    range is named. -/
theorem enumerators_values {t : SymbolTable} {r : Resolver t} (hr : r.Reached) {id : t.Id}
    {e : EnumDef} (hget : t.get id = .enum e) {width : Nat}
    (hwidth : (r.run (widthOf id)).1 = .ok width) :
    ((∃ ws, (r.run (enumerators id)).1 = .ok ws) ↔
        ∀ i < e.values.length, InRange width (valueAt e.values i)) ∧
      (∀ ws, (r.run (enumerators id)).1 = .ok ws →
          ws = e.values.mapIdx (numbered e.values)) ∧
      ∀ i, (hi : i < e.values.length) → (∀ k < i, InRange width (valueAt e.values k)) →
        ¬ InRange width (valueAt e.values i) →
          (r.run (enumerators id)).1 =
            .error (.enumeratorOverflow e.name e.values[i].name
                (valueAt e.values i) width) := by
  rw [run_enumerators hr hget hwidth]
  refine ⟨assignFrom_isOk_iff, ?_, ?_⟩
  · intro ws hws
    rw [assignFrom_of_inRange (assignFrom_isOk_iff.mp ⟨ws, hws⟩)] at hws
    exact (Except.ok.inj hws).symm
  · intro i hi hfirst hmisfit
    exact assignFrom_first_misfit hi hfirst hmisfit

/-- Two enums of three bits; in the second, two values do not fit. -/
def phaseTable : SymbolTable where
  decls :=
    [.enum { name := "phase_e", width := .literal 3, values :=
       [{ name := "IDLE" }, { name := "ARMED", value := some 5 }, { name := "FIRED" },
        { name := "RESET", value := some 0 }, { name := "HOLD" }, { name := "DONE" }] },
     .enum { name := "level_e", width := .literal 3, values :=
       [{ name := "LOW", value := some 6 }, { name := "MID" }, { name := "HIGH" },
        { name := "NONE", value := some (-1) }] }]

/-- Values continue from the last one that is written, and of two that do not fit the
    first is reported. -/
theorem phaseTable_values :
    (({} : Resolver phaseTable).run (enumerators ⟨0, by decide⟩)).1 =
        .ok [{ name := "IDLE", value := 0 }, { name := "ARMED", value := 5 },
          { name := "FIRED", value := 6 }, { name := "RESET", value := 0 },
          { name := "HOLD", value := 1 }, { name := "DONE", value := 2 }] ∧
      (({} : Resolver phaseTable).run (enumerators ⟨1, by decide⟩)).1 =
        .error (.enumeratorOverflow "level_e" "HIGH" 8 3) := by
  have hphase : (({} : Resolver phaseTable).run (widthOf ⟨0, by decide⟩)).1 = .ok 3 := by
    decide
  have hlevel : (({} : Resolver phaseTable).run (widthOf ⟨1, by decide⟩)).1 = .ok 3 := by
    decide
  constructor
  · obtain ⟨hok, hvalues, _⟩ := enumerators_values (.fresh .off) rfl hphase
    obtain ⟨ws, hws⟩ := hok.mpr (by decide)
    rw [hws, hvalues ws hws]
    rfl
  · exact (enumerators_values (.fresh .off) rfl hlevel).2.2 2 (by decide)
      (by decide) (by decide)

end Plan

end WireSchema
