import Mathlib.Data.List.Forall2
import WireSchema.Proofs.Comments
import WireSchema.Proofs.Lists
import WireSchema.Proofs.Splitting
import WireSchema.Proofs.WhiteSpace

/-!
# Documentation survives rendering

Documentation is rendered in two ways, and both can be read back.  On a single line it
keeps its words and loses nothing but white space between them.  As whole comment lines it
keeps its lines: `uncomment?` takes the indent, the comment mark and one blank off a line,
and what is left is the line of the documentation without the white space it ends with.

What the lines of a text are is said here once more, by its line feeds (`cutLines`), and
not by reading it from the front.
-/

namespace WireSchema

namespace Text

/-! ### Lines by their line feeds -/

def withoutReturn (line : List Char) : List Char :=
  if line.getLast? = some '\r' then line.dropLast else line

/-- The lines of a text: what the line feeds end, each without a carriage return at its
    end, and the rest unless it is empty. -/
def cutLines (cs : List Char) : List (List Char) :=
  (splitAll '\n' cs).dropLast.map withoutReturn ++
    (splitAll '\n' cs).getLast?.toList.filter fun line => !line.isEmpty

theorem reverse_dropReturn (line : List Char) :
    (dropReturn line).reverse = withoutReturn line.reverse := by
  unfold dropReturn withoutReturn
  rw [List.getLast?_reverse, List.dropLast_reverse]
  split
  · rfl
  · rename_i hreturn
    rw [if_neg]
    intro hhead
    obtain ⟨rest, hrest⟩ := List.head?_eq_some_iff.mp hhead
    exact hreturn rest hrest

theorem cutLines_append_newLine {line : List Char} (hline : '\n' ∉ line)
    (rest : List Char) :
    cutLines (line ++ '\n' :: rest) = withoutReturn line :: cutLines rest := by
  have hsplit : splitAll '\n' (line ++ '\n' :: rest) = line :: splitAll '\n' rest := by
    rw [splitAll_append_mark, splitAll_of_notMem hline, List.singleton_append]
  obtain ⟨first, more, hrest⟩ := List.exists_cons_of_ne_nil (splitAll_ne_nil '\n' rest)
  simp only [cutLines, hsplit, hrest, List.dropLast_cons_cons, List.map_cons,
      List.cons_append, List.getLast?_cons_cons]

/-- Reading a text from the front finds the lines that its line feeds end. -/
theorem linesFrom_eq_cutLines {line cs : List Char} (hline : '\n' ∉ line) :
    linesFrom line cs = cutLines (line.reverse ++ cs) := by
  induction line, cs using linesFrom.induct with
  | case1 line hempty => simp [linesFrom, List.isEmpty_iff.mp hempty, cutLines, splitAll]
  | case2 line hempty =>
    have hreverse : '\n' ∉ line.reverse := by simpa using hline
    simp [linesFrom, hempty, cutLines, splitAll_of_notMem hreverse]
  | case3 line rest ih =>
    have hreverse : '\n' ∉ line.reverse := by simpa using hline
    rw [linesFrom, ih (by simp), cutLines_append_newLine hreverse, reverse_dropReturn]
    rfl
  | case4 line c rest hc ih =>
    have hmore : '\n' ∉ c :: line := by
      intro hmem
      rcases List.mem_cons.mp hmem with hnewLine | hmem
      · exact hc hnewLine.symm
      · exact hline hmem
    rw [linesFrom, ih hmore, List.reverse_cons, List.append_assoc, List.singleton_append]
    exact hc

theorem lineChars_eq_cutLines (cs : List Char) : lineChars cs = cutLines cs :=
  linesFrom_eq_cutLines (by simp)

theorem cutLines_of_notMem {cs : List Char} (h : '\n' ∉ cs) :
    cutLines cs = [cs].filter fun line => !line.isEmpty := by
  simp [cutLines, splitAll_of_notMem h]

/-- `kept` is what is left of a line when the white space at its end is taken off. -/
structure IsKept (line kept : List Char) : Prop where
  after : ∃ after, line = kept ++ after ∧ ∀ c ∈ after, isBlank c = true
  last : ∀ c ∈ kept.getLast?, isBlank c = false

theorem isKept_trimEndChars (line : List Char) : IsKept line (trimEndChars line) := by
  refine ⟨exists_trimEndChars_append line, ?_⟩
  intro c hc
  apply isBlank_head?_dropWhile line.reverse c
  rw [← List.getLast?_reverse]
  exact hc

/-! ### Words of lines -/

theorem wordChars_withoutReturn (line : List Char) :
    wordChars (withoutReturn line) = wordChars line := by
  unfold withoutReturn
  split
  · rename_i hlast
    have hline : line = line.dropLast ++ ['\r'] :=
      (List.dropLast_append_getLast? '\r' hlast).symm
    have hwords := congrArg wordChars hline
    rw [wordChars_append_blanks (List.forall_mem_singleton.mpr (by decide))] at hwords
    exact hwords.symm
  · rfl

theorem flatMap_wordChars_linesFrom (line cs : List Char) :
    (linesFrom line cs).flatMap wordChars = wordChars (line.reverse ++ cs) := by
  induction line, cs using linesFrom.induct with
  | case1 line hempty => simp [linesFrom, List.isEmpty_iff.mp hempty, wordChars, wordsFrom]
  | case2 line hempty => simp [linesFrom, hempty]
  | case3 line rest ih =>
    rw [linesFrom, List.flatMap_cons, ih, reverse_dropReturn, wordChars_withoutReturn,
      wordChars_append_blank (by decide)]
    rfl
  | case4 line c rest hc ih =>
    rw [linesFrom, ih, List.reverse_cons, List.append_assoc, List.singleton_append]
    exact hc

theorem flatMap_wordChars_filter (parts : List (List Char)) :
    (parts.filter fun part => !part.isEmpty).flatMap wordChars =
      parts.flatMap wordChars := by
  induction parts with
  | nil => rfl
  | cons part parts ih =>
    cases part with
    | nil => simpa [wordChars, wordsFrom] using ih
    | cons c part => simp [ih]

theorem wordChars_intercalate {c : Char} (hc : isBlank c = true)
    (parts : List (List Char)) :
    wordChars ([c].intercalate parts) = parts.flatMap wordChars := by
  induction parts with
  | nil => rfl
  | cons part rest ih =>
    cases rest with
    | nil => simp
    | cons next rest =>
      rw [List.intercalate_cons_cons, List.append_assoc, List.singleton_append,
          wordChars_append_blank hc, ih]
      rfl

end Text

/-! ### On a single line -/

theorem wordChars_trailing (text : String) :
    Text.wordChars (trailing text).toList = Text.wordChars text.toList := by
  have htrim : ∀ lines : List (List Char),
      (lines.map Text.trimChars).flatMap Text.wordChars = lines.flatMap Text.wordChars := by
    intro lines
    rw [List.flatMap_map]
    simp only [Text.wordChars_trimChars]
  rw [toList_trailing, Text.wordChars_intercalate (by decide),
      Text.flatMap_wordChars_filter, htrim]
  exact Text.flatMap_wordChars_linesFrom [] text.toList

theorem isBlank_head?_trailing (text : String) :
    ∀ c ∈ (trailing text).toList.head?, Text.isBlank c = false := by
  intro c hc
  rw [toList_trailing] at hc
  obtain ⟨part, hpart, hhead⟩ := head?_intercalate (by simp) hc
  obtain ⟨line, _, rfl⟩ := List.mem_map.mp (List.mem_of_mem_filter hpart)
  exact (Text.isCore_trimChars line).head c hhead

theorem isBlank_getLast?_trailing (text : String) :
    ∀ c ∈ (trailing text).toList.getLast?, Text.isBlank c = false := by
  intro c hc
  rw [toList_trailing] at hc
  obtain ⟨part, hpart, hlast⟩ := getLast?_intercalate (by simp) hc
  obtain ⟨line, _, rfl⟩ := List.mem_map.mp (List.mem_of_mem_filter hpart)
  exact (Text.isCore_trimChars line).last c hlast

/-- A single line without white space around it is rendered as it is. -/
theorem trailing_eq_self {text : String} (hline : '\n' ∉ text.toList)
    (hcore : Text.IsCore text.toList text.toList) : trailing text = text := by
  apply String.toList_inj.mp
  rw [toList_trailing, Text.lineChars_eq_cutLines, Text.cutLines_of_notMem hline]
  by_cases hempty : text.toList = []
  · simp [hempty]
  · simp [hempty, hcore.trimChars_eq]

theorem trailing_trailing (text : String) : trailing (trailing text) = trailing text := by
  apply trailing_eq_self (newLine_notMem_trailing text)
  refine ⟨⟨[], [], by simp, by simp, by simp⟩, ?_, ?_⟩
  · exact isBlank_head?_trailing text
  · exact isBlank_getLast?_trailing text

/-! ### As comment lines -/

def dropBlank : List Char → List Char
  | ' ' :: rest => rest
  | cs => cs

/-- What a comment line says: the line without the indent, the comment mark and one blank
    after it. -/
def uncomment? (indent line : String) : Option String :=
  ((indent ++ "//").toList.isPrefixOf? line.toList).map fun body =>
    String.ofList (dropBlank body)

def Docs.writtenLines (docs : Docs) : List String :=
  ((docs.summary :: docs.verbose.toList).flatMap fun text =>
      Text.cutLines text.toList).map String.ofList

theorem Docs.allLines_eq_writtenLines (docs : Docs) :
    docs.allLines = docs.writtenLines := by
  unfold allLines verboseLines writtenLines
  cases docs.verbose <;> simp [Text.lines, Text.lineChars_eq_cutLines]

theorem dropBlank_commentBody (line : String) :
    dropBlank (commentBody line).toList = (Text.trimEnd line).toList := by
  unfold commentBody
  by_cases hempty : (Text.trimEnd line).isEmpty = true
  · simp [String.isEmpty_iff.mp hempty, dropBlank]
  · simp [hempty, dropBlank]

theorem uncomment?_commentLine (indent line : String) :
    uncomment? indent (commentLine indent line) = some (Text.trimEnd line) := by
  have hmark : (indent ++ "//").toList.isPrefixOf? (commentLine indent line).toList =
      some (commentBody line).toList := by
    rw [List.isPrefixOf?_eq_some_iff_append_eq, ← String.toList_append]
    rfl
  rw [uncomment?, hmark, Option.map_some, dropBlank_commentBody, String.ofList_toList]

/-- The comment line gives a line of the documentation back, less the white space at its
    end. -/
def GivesBack (indent line written : String) : Prop :=
  ∃ said, uncomment? indent line = some said ∧ Text.IsKept written.toList said.toList

theorem givesBack_commentLine (indent line : String) :
    GivesBack indent (commentLine indent line) line := by
  refine ⟨Text.trimEnd line, uncomment?_commentLine indent line, ?_⟩
  rw [Text.trimEnd, String.toList_ofList]
  exact Text.isKept_trimEndChars line.toList

theorem newLine_notMem_commentLine {indent line : String} (hindent : '\n' ∉ indent.toList)
    (hline : '\n' ∉ line.toList) : '\n' ∉ (commentLine indent line).toList := by
  have hbody := newLine_notMem_commentBody hline
  simp [commentLine, hindent, hbody]

theorem newLine_notMem_allLines {docs : Docs} {line : String} (h : line ∈ docs.allLines) :
    '\n' ∉ line.toList := by
  unfold Docs.allLines Docs.verboseLines at h
  rcases List.mem_append.mp h with h | h
  · exact Text.newLine_notMem_lines h
  · split at h
    · exact Text.newLine_notMem_lines h
    · cases h

/-- **Documentation survives rendering.**  On a single line it has the same words, one
    line, no white space at its ends, and rendering it again changes nothing.  As comment
    lines it is the summary and then the verbose documentation, with one comment line for
    each of their lines, and each comment line gives its line back, less the white space
    at the end. -/
theorem rendering_faithful :
    (∀ text : String,
      '\n' ∉ (trailing text).toList ∧
        (∀ c ∈ (trailing text).toList.head?, Text.isBlank c = false) ∧
        (∀ c ∈ (trailing text).toList.getLast?, Text.isBlank c = false) ∧
        Text.wordChars (trailing text).toList = Text.wordChars text.toList ∧
        trailing (trailing text) = trailing text) ∧
      ∀ (docs : Docs) (indent : String),
        docs.leading indent =
            (Text.lines docs.summary).map (commentLine indent) ++
              docs.verboseComments indent ∧
          List.Forall₂ (GivesBack indent) (docs.leading indent) docs.writtenLines ∧
          ('\n' ∉ indent.toList → ∀ line ∈ docs.leading indent, '\n' ∉ line.toList) := by
  constructor
  · intro text
    exact ⟨newLine_notMem_trailing text, isBlank_head?_trailing text,
        isBlank_getLast?_trailing text, wordChars_trailing text, trailing_trailing text⟩
  · intro docs indent
    refine ⟨List.map_append, ?_, ?_⟩
    · rw [Docs.leading, docs.allLines_eq_writtenLines, List.forall₂_map_left_iff,
          List.forall₂_same]
      intro line _
      exact givesBack_commentLine indent line
    · intro hindent line hline
      obtain ⟨written, hwritten, rfl⟩ := List.mem_map.mp hline
      exact newLine_notMem_commentLine hindent (newLine_notMem_allLines hwritten)

/-- A summary with white space around it, and a verbose text with lines that are empty or
    made of white space only. -/
def laneDocs : Docs where
  summary := " A bus\u00a0\r\n\tof  lanes"
  verbose := some "\n \r\n  Two, \r of them.\r"

/-- On one line only the white space around the lines of the summary is gone.  Among the
    comment lines those for empty lines stay, and so does what a line begins with. -/
theorem laneDocs_rendered :
    trailing laneDocs.summary = "A bus of  lanes" ∧ Text.isBlank 'A' = false ∧
      Text.isBlank 's' = false ∧
      laneDocs.leading "  " = ["  //  A bus", "  // \tof  lanes", "  //", "  //",
          "  //   Two, \r of them."] ∧
      List.Forall₂ (GivesBack "  ") (laneDocs.leading "  ") laneDocs.writtenLines ∧
      '\n' ∉ "  // \tof  lanes".toList := by
  have hline := rendering_faithful.1 laneDocs.summary
  have hlines := rendering_faithful.2 laneDocs "  "
  have htrailing : trailing laneDocs.summary = "A bus of  lanes" := by decide
  have hleading : laneDocs.leading "  " =
      ["  //  A bus", "  // \tof  lanes", "  //", "  //", "  //   Two, \r of them."] := by
    decide
  refine ⟨htrailing, hline.2.1 'A' (by rw [htrailing]; rfl),
      hline.2.2.1 's' (by rw [htrailing]; rfl), hleading, hlines.2.1,
      hlines.2.2 (by decide) _ (by rw [hleading]; simp)⟩

end WireSchema
