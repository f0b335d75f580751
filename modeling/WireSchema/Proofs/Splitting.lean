import Mathlib.Data.List.Basic
import WireSchema.Proofs.Lists
import WireSchema.Text.Split

/-!
# Splitting and joining again

A text that is split at a mark falls into parts that do not hold the mark, and parts that
were joined by the mark are found again.
-/

namespace WireSchema

namespace Text

theorem splitAll_ne_nil (mark : Char) (cs : List Char) : splitAll mark cs ≠ [] := by
  cases cs with
  | nil => simp [splitAll]
  | cons c cs =>
    unfold splitAll
    split
    · simp
    · split <;> simp

theorem splitAll_cons_of_ne {mark c : Char} {cs : List Char} (h : c ≠ mark) :
    splitAll mark (c :: cs) = (splitAll mark cs).modifyHead (c :: ·) := by
  obtain ⟨first, more, hsplit⟩ := List.exists_cons_of_ne_nil (splitAll_ne_nil mark cs)
  simp [splitAll, h, hsplit]

/-- Splitting goes on behind a mark as at the start. -/
theorem splitAll_append_mark (mark : Char) (cs rest : List Char) :
    splitAll mark (cs ++ mark :: rest) = splitAll mark cs ++ splitAll mark rest := by
  induction cs with
  | nil => simp [splitAll]
  | cons c cs ih =>
    by_cases hc : c = mark
    · simp [splitAll, hc, ih]
    · obtain ⟨first, more, hsplit⟩ := List.exists_cons_of_ne_nil (splitAll_ne_nil mark cs)
      rw [List.cons_append, splitAll_cons_of_ne hc, splitAll_cons_of_ne hc, ih, hsplit]
      rfl

theorem splitAll_append_of_notMem {mark : Char} {cs : List Char} (h : mark ∉ cs)
    (rest : List Char) :
    splitAll mark (cs ++ rest) = (splitAll mark rest).modifyHead (cs ++ ·) := by
  induction cs with
  | nil =>
    rw [List.nil_append]
    cases splitAll mark rest <;> rfl
  | cons c cs ih =>
    have hc : c ≠ mark := by
      rintro rfl
      simp at h
    rw [List.cons_append, splitAll_cons_of_ne hc, ih fun hmem =>
        h (List.mem_cons_of_mem c hmem), List.modifyHead_modifyHead]
    rfl

theorem splitAll_of_notMem {mark : Char} {cs : List Char} (h : mark ∉ cs) :
    splitAll mark cs = [cs] := by
  simpa [splitAll] using splitAll_append_of_notMem h []

/-- No mark is left in a part. -/
theorem notMem_splitAll {mark : Char} {cs part : List Char}
    (h : part ∈ splitAll mark cs) : mark ∉ part := by
  induction cs generalizing part with
  | nil => simp_all [splitAll]
  | cons c cs ih =>
    by_cases hc : c = mark
    · simp only [splitAll, if_pos hc, List.mem_cons] at h
      rcases h with rfl | h
      · simp
      · exact ih h
    · obtain ⟨first, more, hsplit⟩ := List.exists_cons_of_ne_nil (splitAll_ne_nil mark cs)
      rw [splitAll_cons_of_ne hc, hsplit, List.modifyHead_cons] at h
      rcases List.mem_cons.mp h with rfl | h
      · have hfirst : mark ∉ first := ih (by simp [hsplit])
        simp [hfirst, Ne.symm hc]
      · exact ih (by simp [hsplit, h])

theorem mem_of_mem_splitAll {mark c : Char} {cs part : List Char}
    (hpart : part ∈ splitAll mark cs) (hc : c ∈ part) : c ∈ cs := by
  induction cs generalizing part with
  | nil =>
    rw [splitAll, List.mem_singleton] at hpart
    rw [hpart] at hc
    cases hc
  | cons d cs ih =>
    by_cases hd : d = mark
    · rw [splitAll, if_pos hd] at hpart
      rcases List.mem_cons.mp hpart with rfl | hpart
      · cases hc
      · exact List.mem_cons_of_mem d (ih hpart hc)
    · obtain ⟨first, more, hsplit⟩ := List.exists_cons_of_ne_nil (splitAll_ne_nil mark cs)
      rw [splitAll_cons_of_ne hd, hsplit, List.modifyHead_cons] at hpart
      rcases List.mem_cons.mp hpart with rfl | hpart
      · rcases List.mem_cons.mp hc with rfl | hc
        · exact List.mem_cons_self
        · exact List.mem_cons_of_mem d (ih (by simp [hsplit]) hc)
      · exact List.mem_cons_of_mem d (ih (by simp [hsplit, hpart]) hc)

/-- The first part is what stands before the first mark. -/
theorem head?_splitAll (mark : Char) (cs : List Char) :
    (splitAll mark cs).head? = some (cs.takeWhile (· ≠ mark)) := by
  induction cs with
  | nil => rfl
  | cons c cs ih =>
    by_cases hc : c = mark
    · simp [splitAll, hc]
    · rw [splitAll_cons_of_ne hc, List.head?_modifyHead, ih]
      simp [hc]

/-- The last part is what follows the last mark. -/
theorem splitAll_cases (mark : Char) (cs : List Char) :
    (mark ∉ cs ∧ splitAll mark cs = [cs]) ∨
      ∃ before after, cs = before ++ mark :: after ∧ mark ∉ after ∧
        splitAll mark cs = splitAll mark before ++ [after] := by
  by_cases hmem : mark ∈ cs
  · right
    obtain ⟨before, after, rfl, hnone⟩ := exists_last_split hmem
    refine ⟨before, after, rfl, hnone, ?_⟩
    rw [splitAll_append_mark, splitAll_of_notMem hnone]
  · exact .inl ⟨hmem, splitAll_of_notMem hmem⟩

section Last

variable {α : Type} [DecidableEq α]

theorem append_of_splitLast? {mark : α} {cs before after : List α}
    (h : splitLast? mark cs = some (before, after)) : cs = before ++ mark :: after := by
  induction cs generalizing before with
  | nil => cases h
  | cons c cs ih =>
    unfold splitLast? at h
    cases hrest : splitLast? mark cs with
    | some found =>
      obtain ⟨first, last⟩ := found
      rw [hrest] at h
      cases h
      rw [ih hrest]
      rfl
    | none =>
      simp only [hrest] at h
      split at h
      · rename_i hc
        cases h
        rw [hc]
        rfl
      · cases h

theorem splitLast?_of_notMem {mark : α} {cs : List α} (h : mark ∉ cs) :
    splitLast? mark cs = none := by
  induction cs with
  | nil => rfl
  | cons c cs ih =>
    rw [List.mem_cons, not_or] at h
    rw [splitLast?, ih h.2]
    exact if_neg (Ne.symm h.1)

theorem splitLast?_append_mark {mark : α} {after : List α} (h : mark ∉ after)
    (before : List α) :
    splitLast? mark (before ++ mark :: after) = some (before, after) := by
  induction before with
  | nil => simp [splitLast?, splitLast?_of_notMem h]
  | cons c before ih => rw [List.cons_append, splitLast?, ih]

/-- A text is divided at its last mark. -/
theorem splitLast?_eq_some_iff {mark : α} {cs before after : List α} :
    splitLast? mark cs = some (before, after) ↔ cs = before ++ mark :: after ∧
      mark ∉ after := by
  constructor
  · intro h
    have hcs := append_of_splitLast? h
    obtain ⟨first, last, hlast, hnone⟩ := exists_last_split (by simp [hcs] : mark ∈ cs)
    rw [hlast, splitLast?_append_mark hnone, Option.some.injEq, Prod.mk.injEq] at h
    rw [h.1, h.2] at hlast
    exact ⟨hlast, h.2 ▸ hnone⟩
  · rintro ⟨rfl, hnone⟩
    exact splitLast?_append_mark hnone before

end Last

end Text

end WireSchema
