import Mathlib.Data.List.Basic
import WireSchema.Emit.Comment
import WireSchema.Proofs.Lists

/-!
# Documentation in comments

What stands after a comment mark is a single line, whatever the documentation is.  It ends
in a backslash only if a line of the documentation does (`endsOpen`).
-/

namespace WireSchema

namespace Text

/-! ### Single lines -/

theorem mem_of_mem_dropReturn {c : Char} {line : List Char} (h : c ∈ dropReturn line) :
    c ∈ line := by
  unfold dropReturn at h
  split at h
  · exact List.mem_cons_of_mem _ h
  · exact h

theorem newLine_notMem_linesFrom {line cs : List Char} (h : '\n' ∉ line) :
    ∀ found ∈ linesFrom line cs, '\n' ∉ found := by
  induction line, cs using linesFrom.induct with
  | case1 line hempty => simp [linesFrom, hempty]
  | case2 line hempty => simpa [linesFrom, hempty] using h
  | case3 line rest ih =>
    intro found hfound
    rcases List.mem_cons.mp hfound with rfl | hfound
    · rw [List.mem_reverse]
      exact fun hmem => h (mem_of_mem_dropReturn hmem)
    · exact ih (by simp) found hfound
  | case4 line c rest hc ih =>
    rw [linesFrom]
    · apply ih
      intro hmem
      rcases List.mem_cons.mp hmem with hnewLine | hmem
      · exact hc hnewLine.symm
      · exact h hmem
    · exact hc

/-- The lines of a text hold no line feed. -/
theorem newLine_notMem_lines {text line : String} (h : line ∈ lines text) :
    '\n' ∉ line.toList := by
  obtain ⟨cs, hcs, rfl⟩ := List.mem_map.mp h
  rw [String.toList_ofList]
  exact newLine_notMem_linesFrom (by simp) cs hcs

theorem mem_of_mem_trimEndChars {c : Char} {cs : List Char} (h : c ∈ trimEndChars cs) :
    c ∈ cs := by
  rw [trimEndChars, List.mem_reverse] at h
  exact List.mem_reverse.mp ((List.dropWhile_sublist _).mem h)

theorem mem_of_mem_trimChars {c : Char} {cs : List Char} (h : c ∈ trimChars cs) : c ∈ cs :=
  (List.dropWhile_sublist _).mem (mem_of_mem_trimEndChars h)

/-! ### Last characters -/

theorem trimEndChars_append {first second : List Char} (h : trimEndChars second ≠ []) :
    trimEndChars (first ++ second) = first ++ trimEndChars second := by
  have hne : second.reverse.dropWhile isBlank ≠ [] := by simpa [trimEndChars] using h
  simp [trimEndChars, List.dropWhile_append, hne]

theorem getLast?_trimEndChars {c : Char} {cs : List Char}
    (h : (trimChars cs).getLast? = some c) : (trimEndChars cs).getLast? = some c := by
  have hne : trimEndChars (cs.dropWhile isBlank) ≠ [] := by
    intro hnil
    rw [trimChars, hnil] at h
    cases h
  rw [← List.takeWhile_append_dropWhile (p := isBlank) (l := cs), trimEndChars_append hne,
      List.getLast?_append]
  unfold trimChars at h
  rw [h]
  rfl

end Text

/-! ### Comments -/

/-- The line ends in a backslash, or in one and white space. -/
def endsOpen (line : String) : Bool := (Text.trimEnd line).toList.getLast? == some '\\'

theorem newLine_notMem_commentBody {line : String} (h : '\n' ∉ line.toList) :
    '\n' ∉ (commentBody line).toList := by
  have htrim : '\n' ∉ (Text.trimEnd line).toList := by
    rw [Text.trimEnd, String.toList_ofList]
    exact fun hmem => h (Text.mem_of_mem_trimEndChars hmem)
  by_cases hempty : (Text.trimEnd line).isEmpty = true
  · simp [commentBody, hempty]
  · simpa [commentBody, hempty] using htrim

theorem endsOpen_of_commentBody {line : String}
    (h : (commentBody line).toList.getLast? = some '\\') : endsOpen line = true := by
  unfold commentBody at h
  by_cases hempty : (Text.trimEnd line).isEmpty = true
  · simp [hempty] at h
  · have hne : (Text.trimEnd line).toList ≠ [] := by simpa using hempty
    obtain ⟨last, hlast⟩ := Option.ne_none_iff_exists'.mp
      (mt List.getLast?_eq_none_iff.mp hne)
    simp only [hempty, Bool.false_eq_true, if_false, String.toList_append,
        List.getLast?_append, hlast, Option.some_or] at h
    simp [endsOpen, hlast, Option.some.inj h]

theorem toList_trailing (text : String) :
    (trailing text).toList =
      [' '].intercalate (((Text.lineChars text.toList).map Text.trimChars).filter
          fun line => !line.isEmpty) := by
  have hempty : ∀ cs : List Char, (String.ofList cs).isEmpty = cs.isEmpty := by
    intro cs
    rw [Bool.eq_iff_iff, String.isEmpty_iff, List.isEmpty_iff, String.ofList_eq_empty_iff]
  unfold trailing
  rw [String.toList_intercalate]
  simp [Text.lines, Text.trim, List.filter_map, Function.comp_def, hempty]

/-- Documentation on a single line is a single line. -/
theorem newLine_notMem_trailing (text : String) : '\n' ∉ (trailing text).toList := by
  rw [toList_trailing]
  intro hmem
  rcases mem_intercalate hmem with hsep | ⟨part, hpart, hmem⟩
  · simp at hsep
  · obtain ⟨line, hline, rfl⟩ := List.mem_map.mp (List.mem_of_mem_filter hpart)
    exact Text.newLine_notMem_linesFrom (by simp) line hline
      (Text.mem_of_mem_trimChars hmem)

/-- Joining lines brings no backslash to the end that did not end one of them. -/
theorem endsOpen_of_trailing {text : String}
    (h : (trailing text).toList.getLast? = some '\\') :
    ∃ line ∈ Text.lines text, endsOpen line = true := by
  rw [toList_trailing] at h
  obtain ⟨part, hpart, hlast⟩ := getLast?_intercalate (by simp) h
  obtain ⟨line, hline, rfl⟩ := List.mem_map.mp (List.mem_of_mem_filter hpart)
  refine ⟨String.ofList line, List.mem_map_of_mem hline, ?_⟩
  simp [endsOpen, Text.trimEnd, Text.getLast?_trimEndChars hlast]

end WireSchema
