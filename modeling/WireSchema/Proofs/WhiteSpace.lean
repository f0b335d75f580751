import Mathlib.Data.List.TakeWhile
import WireSchema.Text.Split

/-!
# White space around a text and inside it

Trimming takes the white space off both ends of a text.  `IsCore` says what is left
without saying how it is found: the text around it is blank, and it neither begins nor
ends with a blank.  Every text has one core, and trimming finds it.

Inside a text, white space separates words.  At every blank the words fall into those
before it and those after it (`wordChars_append_blank`), so white space at the ends does
not matter to them.
-/

namespace WireSchema.Text

/-- `core` is what is left of a text when the white space around it is taken off. -/
structure IsCore (cs core : List Char) : Prop where
  around : ∃ before after, cs = before ++ core ++ after ∧ (∀ c ∈ before, isBlank c = true) ∧
    ∀ c ∈ after, isBlank c = true
  head : ∀ c ∈ core.head?, isBlank c = false
  last : ∀ c ∈ core.getLast?, isBlank c = false

theorem dropWhile_of_head? {cs : List Char} (h : ∀ c ∈ cs.head?, isBlank c = false) :
    cs.dropWhile isBlank = cs := by
  cases cs with
  | nil => rfl
  | cons c cs => rw [List.dropWhile_cons_of_neg (by simp [h c rfl])]

theorem isBlank_head?_dropWhile (cs : List Char) :
    ∀ c ∈ (cs.dropWhile isBlank).head?, isBlank c = false := by
  intro c hc
  have hhead := List.head?_dropWhile_not isBlank cs
  rw [Option.mem_def.mp hc] at hhead
  exact hhead

/-! ### Finding the core -/

theorem trimEndChars_append_blank {cs after : List Char}
    (hlast : ∀ c ∈ cs.getLast?, isBlank c = false)
    (hafter : ∀ c ∈ after, isBlank c = true) : trimEndChars (cs ++ after) = cs := by
  have hreverse : ∀ c ∈ after.reverse, isBlank c = true := by
    intro c hc
    exact hafter c (List.mem_reverse.mp hc)
  have hhead : ∀ c ∈ cs.reverse.head?, isBlank c = false := by
    rw [List.head?_reverse]
    exact hlast
  unfold trimEndChars
  rw [List.reverse_append, List.dropWhile_append_of_pos hreverse,
      dropWhile_of_head? hhead, List.reverse_reverse]

/-- What is left of a text without the white space around it is what trimming gives. -/
theorem IsCore.trimChars_eq {cs core : List Char} (h : IsCore cs core) :
    trimChars cs = core := by
  obtain ⟨before, after, rfl, hbefore, hafter⟩ := h.around
  unfold trimChars
  rw [List.append_assoc, List.dropWhile_append_of_pos hbefore]
  cases core with
  | nil =>
    rw [List.nil_append, List.dropWhile_eq_nil_iff.mpr hafter]
    rfl
  | cons c core =>
    rw [dropWhile_of_head?]
    · exact trimEndChars_append_blank h.last hafter
    · exact h.head

/-- What a text ends with after the last character that is not blank. -/
theorem exists_trimEndChars_append (cs : List Char) :
    ∃ after, cs = trimEndChars cs ++ after ∧ ∀ c ∈ after, isBlank c = true := by
  refine ⟨(cs.reverse.takeWhile isBlank).reverse, ?_, ?_⟩
  · unfold trimEndChars
    rw [← List.reverse_append, List.takeWhile_append_dropWhile, List.reverse_reverse]
  · intro c hc
    exact List.mem_takeWhile_imp (List.mem_reverse.mp hc)

/-- **Trimming finds the core of a text**, which is the only one by
    `IsCore.trimChars_eq`. -/
theorem isCore_trimChars (cs : List Char) : IsCore cs (trimChars cs) := by
  obtain ⟨after, hsplit, hafter⟩ := exists_trimEndChars_append (cs.dropWhile isBlank)
  refine ⟨⟨cs.takeWhile isBlank, after, ?_, ?_, hafter⟩, ?_, ?_⟩
  · rw [trimChars, List.append_assoc, ← hsplit, List.takeWhile_append_dropWhile]
  · intro c hc
    exact List.mem_takeWhile_imp hc
  · intro c hc
    -- what begins the core begins the text after its first blanks
    apply isBlank_head?_dropWhile cs c
    rw [hsplit, List.head?_append, ← trimChars, Option.mem_def.mp hc]
    rfl
  · intro c hc
    apply isBlank_head?_dropWhile (cs.dropWhile isBlank).reverse c
    rw [← List.getLast?_reverse]
    exact hc

/-! ### Words -/

theorem wordsFrom_append_blank {c : Char} (hc : isBlank c = true)
    (word cs rest : List Char) :
    wordsFrom word (cs ++ c :: rest) = wordsFrom word cs ++ wordsFrom [] rest := by
  induction cs generalizing word with
  | nil => by_cases hword : word = [] <;> simp [wordsFrom, hc, hword]
  | cons d cs ih =>
    by_cases hd : isBlank d = true
    · by_cases hword : word = [] <;> simp [wordsFrom, hd, hword, ih]
    · simp [wordsFrom, hd, ih]

theorem wordChars_append_blank {c : Char} (hc : isBlank c = true) (cs rest : List Char) :
    wordChars (cs ++ c :: rest) = wordChars cs ++ wordChars rest :=
  wordsFrom_append_blank hc [] cs rest

theorem wordChars_blank {c : Char} {rest : List Char} (hc : isBlank c = true) :
    wordChars (c :: rest) = wordChars rest :=
  wordChars_append_blank hc [] rest

theorem wordChars_blanks_append {before : List Char} (h : ∀ c ∈ before, isBlank c = true)
    (cs : List Char) : wordChars (before ++ cs) = wordChars cs := by
  induction before with
  | nil => rfl
  | cons c before ih =>
    rw [List.cons_append, wordChars_blank (h c List.mem_cons_self)]
    exact ih fun d hd => h d (List.mem_cons_of_mem c hd)

theorem wordChars_append_blanks {after : List Char} (h : ∀ c ∈ after, isBlank c = true)
    (cs : List Char) : wordChars (cs ++ after) = wordChars cs := by
  cases after with
  | nil => rw [List.append_nil]
  | cons c after =>
    have hafter : wordChars after = [] := by
      have hblanks := wordChars_blanks_append
        (fun d hd => h d (List.mem_cons_of_mem c hd)) []
      rwa [List.append_nil] at hblanks
    rw [wordChars_append_blank (h c List.mem_cons_self), hafter, List.append_nil]

/-- The words of a text do not depend on the white space around it. -/
theorem wordChars_trimChars (cs : List Char) : wordChars (trimChars cs) = wordChars cs := by
  obtain ⟨before, after, hsplit, hbefore, hafter⟩ := (isCore_trimChars cs).around
  have hwords := congrArg wordChars hsplit
  rw [wordChars_append_blanks hafter, wordChars_blanks_append hbefore] at hwords
  exact hwords.symm

end WireSchema.Text
