import WireSchema.Proofs.HeaderComments
import WireSchema.Proofs.HeaderMacros
import WireSchema.Proofs.Numerals

/-!
# The constants of a header

The lines of a header that begin with `#define` are the include guard and one line for
every constant of the package.  They are found by splitting the text at its line feeds, so
it matters that no other line begins like this and that nothing that is put into a line,
documentation least of all, ends it.  The constants are read back from the lines.
-/

namespace WireSchema

/-! ### Constants -/

structure Definition where
  name : String
  number : Nat
  note : String
  deriving DecidableEq, Repr

def Definition.text (d : Definition) : String :=
  "#define " ++ d.name ++ " " ++ toString d.number ++ "           // " ++ d.note

/-- The constants of an item: four for a parameter, and the width of any other. -/
def Resolved.Item.definitions : Resolved.Item → List Definition
  | .parameter q =>
    [⟨Text.upper q.name, q.value, trailing q.docs.summary⟩,
     ⟨Text.upper q.name ++ "_WIDTH", q.width, "Width of " ++ Text.upper q.name⟩,
     ⟨Text.upper q.name ++ "_COUNT_WIDTH", q.countWidth,
       "Width to count " ++ Text.upper q.name ++ " items"⟩,
     ⟨Text.upper q.name ++ "_WIDTH_ONE", 1,
       Text.upper q.name ++ "_WIDTH" ++ "-wide 1 for incrementers and decrementers"⟩]
  | .enum e => [⟨Text.upper e.name ++ "_WIDTH", e.width, "Width of " ++ Text.upper e.name⟩]
  | item => [⟨Text.upper item.name ++ "_WIDTH", item.width, "Width of " ++ item.name⟩]

def Resolved.Item.constants : Resolved.Item → List (String × Nat)
  | .parameter q =>
    [(Text.upper q.name, q.value), (Text.upper q.name ++ "_WIDTH", q.width),
        (Text.upper q.name ++ "_COUNT_WIDTH", q.countWidth),
        (Text.upper q.name ++ "_WIDTH_ONE", 1)]
  | item => [(Text.upper item.name ++ "_WIDTH", item.width)]

theorem Resolved.Item.constants_eq (item : Resolved.Item) :
    item.constants = item.definitions.map fun d => (d.name, d.number) := by
  cases item <;> rfl

def Resolved.Item.HasOne : Resolved.Item → Prop
  | .parameter q => q.widthOne = 1
  | _ => True

theorem hasOne_of_resolve {name source : String} {schema : Schema} {tracing : Tracing}
    {p : Package} (h : (Package.resolve name source schema tracing).outcome = .ok p) :
    ∀ item ∈ p.items, item.HasOne := by
  obtain ⟨t, _, order, itemAt, hassembled⟩ := assembled_of_resolve h
  intro item hitem
  obtain ⟨id, hresolves⟩ := hassembled.exists_id hitem
  cases item with
  | parameter q =>
    obtain ⟨_, _, _, _, _, _, _, hone⟩ := hresolves
    exact hone
  | _ => trivial

/-! ### Single lines -/

namespace Text

theorem le_upperPoints {n : Nat} (hn : 128 ≤ n) : ∀ m ∈ upperPoints n, 65 ≤ m := by
  have hexpansions : upperExpansions.all (fun e => e.2.all fun m => decide (65 ≤ m)) =
      true := by decide +kernel
  have hruns : upperRuns.all (fun r => decide (65 ≤ (r.1 : Int) + r.2.2.2)) = true := by
    decide +kernel
  refine forall_upperPoints (by omega) ?_ ?_
  · intro e he m hm
    simpa using List.all_eq_true.mp (List.all_eq_true.mp hexpansions e he) m hm
  · intro r hr hfirst _
    have hrun := List.all_eq_true.mp hruns r hr
    rw [decide_eq_true_eq] at hrun
    omega

theorem newLine_notMem_upperChar {c : Char} (h : c ≠ '\n') : '\n' ∉ upperChar c := by
  intro hmem
  unfold upperChar at hmem
  by_cases hascii : c.toNat < 128
  · rw [if_pos hascii, List.mem_singleton] at hmem
    exact of_ascii (motive := fun c => c ≠ '\n' → '\n' ≠ c.toUpper) (by decide)
      hascii h hmem
  · rw [if_neg hascii] at hmem
    obtain ⟨m, hm, hchar⟩ := List.mem_map.mp hmem
    have hlarge := le_upperPoints (by omega) m hm
    rcases toNat_ofNat_cases m with hvalid | hnull
    · rw [hchar] at hvalid
      have hten : '\n'.toNat = 10 := rfl
      omega
    · rw [hchar] at hnull
      cases hnull

theorem newLine_notMem_upper {s : String} (h : '\n' ∉ s.toList) :
    '\n' ∉ (upper s).toList := by
  rw [upper, String.toList_ofList, List.mem_flatMap]
  rintro ⟨c, hc, hmem⟩
  refine newLine_notMem_upperChar ?_ hmem
  rintro rfl
  exact h hc

end Text

namespace Header

theorem newLine_notMem_opening {p : Package} (hname : '\n' ∉ p.name.toList)
    (hsource : '\n' ∉ p.source.toList) : ∀ line ∈ opening p, '\n' ∉ line.text.toList := by
  have hguard := Text.newLine_notMem_upper hname
  simp [opening, HeaderLine.text, guardName, constantName, blankLine, hguard, hsource]

/-- The lines of a header are single lines, as long as its name and its source are. -/
theorem newLine_notMem_lines {p : Package} {lines : List HeaderLine}
    (h : lines? p = some lines) (hlegible : ∀ item ∈ p.items, item.Legible)
    (hname : '\n' ∉ p.name.toList) (hsource : '\n' ∉ p.source.toList) :
    ∀ line ∈ lines, '\n' ∉ line.text.toList := by
  obtain ⟨body, hbody, rfl⟩ := lines?_eq_some_iff.mp h
  have hguard := Text.newLine_notMem_upper hname
  intro line hline
  simp only [List.mem_append, List.mem_cons, List.not_mem_nil, or_false] at hline
  rcases hline with (hline | hline) | rfl | rfl
  · exact newLine_notMem_opening hname hsource line hline
  · exact (documented_body hbody hlegible line hline).clean.newLine_notMem_text
  · simp [HeaderLine.text, blankLine]
  · simp [HeaderLine.text, endLine, guardName, constantName, hguard]

/-- A text that was written line by line splits into its lines, and the empty one after
    the last line feed. -/
theorem splitText_textChars {lines : List HeaderLine}
    (h : ∀ line ∈ lines, '\n' ∉ line.text.toList) :
    Text.splitText '\n' (String.ofList (textChars lines)) =
      lines.map HeaderLine.text ++ [""] := by
  unfold Text.splitText
  rw [String.toList_ofList]
  induction lines with
  | nil => rfl
  | cons line rest ih =>
    rw [textChars_cons, Text.splitAll_append_mark,
        Text.splitAll_of_notMem (h line List.mem_cons_self)]
    simpa using ih fun other hother => h other (List.mem_cons_of_mem line hother)

/-! ### Lines that define constants -/

/-- The line begins like the definition of a constant. -/
def isDefinition (text : String) : Bool := "#define ".toList.isPrefixOf text.toList

def definitionTexts (lines : List HeaderLine) : List String :=
  (lines.map HeaderLine.text).filter isDefinition

theorem definitionTexts_append (first second : List HeaderLine) :
    definitionTexts (first ++ second) = definitionTexts first ++
      definitionTexts second := by
  simp [definitionTexts]

/-- A line that begins like a definition has the word for it. -/
theorem exists_codeWords_of_isDefinition {text : String} (h : isDefinition text = true) :
    ∃ more, codeWords text = "#define" :: more := by
  obtain ⟨rest, hrest⟩ := List.isPrefixOf_iff_prefix.mp h
  have htext : text = "#define" ++ " " ++ String.ofList rest := by
    apply String.toList_inj.mp
    rw [← hrest]
    simp
  rw [htext, codeWords_append "#define" _ (by decide)]
  exact ⟨_, rfl⟩

theorem definitionTexts_eq_nil {lines : List HeaderLine}
    (h : ∀ line ∈ words lines, line.head? ≠ some "#define") :
    definitionTexts lines = [] := by
  rw [definitionTexts, List.filter_eq_nil_iff]
  intro text htext hdefinition
  obtain ⟨line, hline, rfl⟩ := List.mem_map.mp htext
  obtain ⟨more, hmore⟩ := exists_codeWords_of_isDefinition hdefinition
  have hmem : codeWords line.text ∈ words lines :=
    List.mem_filter.mpr ⟨List.mem_map_of_mem hline, by rw [hmore]; rfl⟩
  apply h _ hmem
  rw [hmore]
  rfl

theorem text_define (name : String) (number : Nat) (note : String) :
    (define name number note).text = (Definition.mk name number note).text := by
  apply String.toList_inj.mp
  simp [define, HeaderLine.text, Definition.text]

theorem isDefinition_text (d : Definition) : isDefinition d.text = true := by
  simp [isDefinition, Definition.text]

/-- The definitions among the lines of an item are those of its constants. -/
theorem definitionTexts_defines {item : Resolved.Item} (h : item.HasOne) :
    definitionTexts (defines item) = item.definitions.map Definition.text := by
  have hall : ∀ ds : List Definition, definitionTexts
      (ds.map fun d => define d.name d.number d.note) = ds.map Definition.text := by
    intro ds
    rw [definitionTexts, List.map_map, List.filter_eq_self.mpr]
    · exact List.map_congr_left fun d _ => text_define d.name d.number d.note
    · intro text htext
      obtain ⟨d, _, rfl⟩ := List.mem_map.mp htext
      rw [Function.comp_apply, text_define]
      exact isDefinition_text d
  cases item with
  | parameter q =>
    have hone : q.widthOne = 1 := h
    have hdocs : definitionTexts (q.docs.verboseLines.map (docLine "")) = [] :=
      definitionTexts_eq_nil (by simp [words_docs_none])
    rw [defines, parameterDefines, definitionTexts_append, hdocs, hone, List.nil_append]
    exact hall (Resolved.Item.parameter q).definitions
  | enum e => exact hall (Resolved.Item.enum e).definitions
  | typedef d => exact hall (Resolved.Item.typedef d).definitions
  | struct s => exact hall (Resolved.Item.struct s).definitions

theorem definitionTexts_opening (p : Package) :
    definitionTexts (opening p) = ["#define " ++ guardName p.name] := by
  simp [definitionTexts, opening, HeaderLine.text, isDefinition, blankLine]

theorem definitionTexts_packageDocs (p : Package) : definitionTexts (packageDocs p) = [] :=
  definitionTexts_eq_nil (by simp [words_packageDocs])

theorem definitionTexts_flatMap {items : List Resolved.Item}
    (h : ∀ item ∈ items, item.HasOne) :
    definitionTexts (items.flatMap defines) =
      (items.flatMap Resolved.Item.definitions).map Definition.text := by
  induction items with
  | nil => rfl
  | cons item items ih =>
    rw [List.flatMap_cons, definitionTexts_append,
        definitionTexts_defines (h item List.mem_cons_self), ih fun other hother =>
        h other (List.mem_cons_of_mem item hother), List.flatMap_cons, List.map_append]

theorem definitionTexts_ending (p : Package) :
    definitionTexts [blankLine, endLine p] = [] := by
  simp [definitionTexts, HeaderLine.text, isDefinition, blankLine, endLine]

theorem definitionTexts_constructs {items : List Resolved.Item}
    {constructs : List (List HeaderLine)} (h : items.mapM construct? = some constructs)
    (hlegible : ∀ item ∈ items, item.Legible) :
    definitionTexts constructs.flatten = [] := by
  apply definitionTexts_eq_nil
  intro line hline
  rw [words_flatten] at hline
  obtain ⟨part, hpart, hline⟩ := List.mem_flatten.mp hline
  obtain ⟨construct, hconstruct, rfl⟩ := List.mem_map.mp hpart
  obtain ⟨item, hitem, hfound⟩ :=
    exists_of_forall₂_left (mapM_eq_some_iff.mp h).flip hconstruct
  have hwords := constructWords_of_construct? hfound (hlegible item hitem)
  exact hwords.head?_ne (hlegible item hitem) line hline

theorem definitionTexts_lines {p : Package} {lines : List HeaderLine}
    (h : lines? p = some lines) (hlegible : ∀ item ∈ p.items, item.Legible)
    (hone : ∀ item ∈ p.items, item.HasOne) :
    definitionTexts lines = ("#define " ++ guardName p.name) ::
      (p.items.flatMap Resolved.Item.definitions).map Definition.text := by
  obtain ⟨body, hbody, rfl⟩ := lines?_eq_some_iff.mp h
  obtain ⟨constructs, hconstructs, rfl⟩ := body?_eq_some_iff.mp hbody
  simp only [definitionTexts_append, definitionTexts_opening, definitionTexts_packageDocs,
    definitionTexts_flatMap hone, definitionTexts_constructs hconstructs hlegible,
    definitionTexts_ending, List.append_nil, List.nil_append, List.singleton_append]

/-! ### Reading constants back -/

def readConstant? (text : String) : Option (String × Nat) :=
  match codeWords text with
  | [first, name, number] =>
    if first = "#define" then (Text.numeral? 10 number.toList).map (name, ·) else none
  | _ => none

theorem readConstant?_text {d : Definition} (h : isIdentifier d.name = true) :
    readConstant? d.text = some (d.name, d.number) := by
  have hwords := (@spells_define d.name d.note d.number h).codeWords
  rw [text_define] at hwords
  unfold readConstant?
  rw [hwords]
  simp only [if_true, Text.numeral?_toString, Option.map_some]

end Header

/-- The names of the constants of an item are identifiers. -/
theorem Resolved.Item.Legible.isIdentifier_definitions {item : Resolved.Item}
    (h : item.Legible) : ∀ d ∈ item.definitions, isIdentifier d.name = true := by
  have hnames : item.definitions.map Definition.name = item.constantNames := by
    cases item <;> rfl
  intro d hd
  refine (h.capital d.name ?_).identifier
  rw [← hnames]
  exact List.mem_map_of_mem hd

/-- **The constants of a header are those of its package.**  Split at its line feeds, the
    header has exactly these lines that begin with `#define`: the include guard, and then
    the lines of the items in the order of the package.  Whatever the documentation is, the
    names and numbers that are read back from them are those of the package. -/
theorem header_constants_exact (name source : String) (schema : Schema)
    (tracing : Tracing) (p : Package) (text : String)
    (h : (Package.resolve name source schema tracing).outcome = .ok p)
    (htext : Header.text? p = some text) (hname : '\n' ∉ name.toList)
    (hsource : '\n' ∉ source.toList) :
    (Text.splitText '\n' text).filter Header.isDefinition =
        ("#define __" ++ Text.upper name ++ "_YIS_H__") ::
          (p.items.flatMap Resolved.Item.definitions).map Definition.text ∧
      ((Text.splitText '\n' text).filter Header.isDefinition).tail.map
          Header.readConstant? =
        (p.items.flatMap Resolved.Item.constants).map some := by
  have hlegible := legible_of_resolve h
  have hone := hasOne_of_resolve h
  obtain ⟨_, _, _, _, _, _, hp⟩ := exists_order_of_resolve h
  have hpname : p.name = name := by rw [hp]
  have hpsource : p.source = source := by rw [hp]
  rw [Header.text?_eq] at htext
  obtain ⟨lines, hlines, rfl⟩ := Option.map_eq_some_iff.mp htext
  have hsingle := Header.newLine_notMem_lines hlines hlegible (by rw [hpname]; exact hname)
    (by rw [hpsource]; exact hsource)
  have hdefinitions : (Text.splitText '\n'
        (String.ofList (Header.textChars lines))).filter Header.isDefinition =
      ("#define __" ++ Text.upper name ++ "_YIS_H__") ::
      (p.items.flatMap Resolved.Item.definitions).map Definition.text := by
    have hguard : "#define " ++ Header.guardName p.name = "#define __" ++
        Text.upper name ++ "_YIS_H__" := by
      apply String.toList_inj.mp
      simp [Header.guardName, constantName, hpname]
    have hempty : [""].filter Header.isDefinition = [] := by decide
    have hall := Header.definitionTexts_lines hlines hlegible hone
    rw [Header.definitionTexts, hguard] at hall
    rw [Header.splitText_textChars hsingle, List.filter_append, hempty,
        List.append_nil, hall]
  refine ⟨hdefinitions, ?_⟩
  rw [hdefinitions, List.tail_cons, List.map_map]
  have hconstants : p.items.flatMap Resolved.Item.constants =
      (p.items.flatMap Resolved.Item.definitions).map fun d => (d.name, d.number) := by
    rw [List.map_flatMap]
    exact List.flatMap_congr fun item _ => item.constants_eq
  rw [hconstants, List.map_map]
  refine List.map_congr_left fun d hd => ?_
  obtain ⟨item, hitem, hd⟩ := List.mem_flatMap.mp hd
  rw [Function.comp_apply, Header.readConstant?_text
      ((hlegible item hitem).isIdentifier_definitions d hd), Function.comp_apply]

/-- A parameter whose documentation is written like definitions. -/
def forgedDepth : Schema where
  decls :=
    [.parameter { name := "depth", value := .literal 4,
                  docs := { summary := "Entries\n#define DEPTH 5",
                            verbose := some "#define DEPTH 6\n#define DEPTH 7" } }]

/-- Only the four constants of the parameter are read back. -/
theorem forgedDepth_constants :
    ∃ p text, (Package.resolve "queue" "queue.yis" forgedDepth {}).outcome = .ok p ∧
      Header.text? p = some text ∧
      ((Text.splitText '\n' text).filter Header.isDefinition).length = 5 ∧
      ((Text.splitText '\n' text).filter Header.isDefinition).tail.map
          Header.readConstant? =
        [some ("DEPTH", 4), some ("DEPTH_WIDTH", 3), some ("DEPTH_COUNT_WIDTH", 3),
          some ("DEPTH_WIDTH_ONE", 1)] := by
  have hp : (Package.resolve "queue" "queue.yis" forgedDepth {}).outcome = .ok _ := rfl
  obtain ⟨hlines, hread⟩ := header_constants_exact "queue" "queue.yis" forgedDepth
    {} _ _ hp rfl (by decide) (by decide)
  refine ⟨_, _, hp, rfl, ?_, ?_⟩
  · rw [hlines]
    rfl
  · rw [hread]
    decide

end WireSchema
