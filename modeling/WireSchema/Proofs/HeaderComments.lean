import WireSchema.Proofs.Comments
import WireSchema.Proofs.HeaderConstructs
import WireSchema.Proofs.ProgramText

/-!
# The comments of a header

After its opening, every line of a header is code that holds no comment mark, no backslash
and no line feed, followed by a comment that is fixed or comes from the documentation
(`Documented`).  So each is a single line, and one that ends in a backslash has it from
the documentation.
-/

namespace WireSchema

/-! ### Documentation -/

def Docs.texts (docs : Docs) : List String := docs.summary :: docs.verbose.toList

def Resolved.Item.documentation : Resolved.Item → List String
  | .parameter q => q.docs.texts
  | .enum e => e.docs.texts ++ e.values.flatMap fun v => v.docs.texts
  | .typedef d => d.docs.texts
  | .struct s => s.docs.texts ++ s.fields.flatMap fun f => f.docs.texts

def Package.documentation (p : Package) : List String :=
  p.docSummary.toList ++ p.docVerbose.toList ++ p.items.flatMap Resolved.Item.documentation

namespace Header

/-! ### Where comments come from -/

/-- A line of code with a comment that is quiet or comes from one of the texts. -/
inductive Documented (texts : List String) : HeaderLine → Prop where
  | bare {code : String} : Quiet code → Documented texts { code := code }
  | noted {code note : String} : Quiet code → Quiet note →
      Documented texts { code := code, comment := some note }
  | leading {indent text line : String} : Quiet indent → text ∈ texts →
      line ∈ Text.lines text → Documented texts (docLine indent line)
  | trailing {code lead text : String} : Quiet code → Quiet lead → text ∈ texts →
      Documented texts { code := code, comment := some (lead ++ trailing text) }

variable {texts : List String} {line : HeaderLine}

theorem Documented.mono {others : List String} (h : Documented texts line)
    (hsub : ∀ text ∈ texts, text ∈ others) : Documented others line := by
  cases h with
  | bare hcode => exact .bare hcode
  | noted hcode hnote => exact .noted hcode hnote
  | leading hindent htext hline => exact .leading hindent (hsub _ htext) hline
  | trailing hcode hlead htext => exact .trailing hcode hlead (hsub _ htext)

/-- A line with its documentation is a single line, and its code can be told from its
    comment. -/
theorem Documented.clean (h : Documented texts line) : line.Clean := by
  cases h with
  | bare hcode => exact ⟨hcode, fun _ hcomment => nomatch hcomment⟩
  | noted hcode hnote =>
    refine ⟨hcode, ?_⟩
    rintro _ ⟨⟩
    exact hnote.newLine_notMem
  | leading hindent htext hline =>
    refine ⟨hindent, ?_⟩
    rintro _ ⟨⟩
    exact newLine_notMem_commentBody (Text.newLine_notMem_lines hline)
  | trailing hcode hlead htext =>
    refine ⟨hcode, ?_⟩
    rintro _ ⟨⟩
    simp [hlead.newLine_notMem, newLine_notMem_trailing]

theorem ends_of_runsOn {code comment : String}
    (h : HeaderLine.runsOn { code := code, comment := some comment } = true) :
    comment.toList.getLast? = some '\\' := by
  simp only [HeaderLine.runsOn, HeaderLine.text, String.toList_append,
      List.getLast?_append, beq_iff_eq] at h
  cases hlast : comment.toList.getLast? with
  | none => simp [hlast] at h
  | some last => simpa [hlast] using h

/-- A line that ends in a backslash has it from a line of the documentation. -/
theorem Documented.endsOpen (h : Documented texts line) (hruns : line.runsOn = true) :
    ∃ text ∈ texts, ∃ doc ∈ Text.lines text, endsOpen doc = true := by
  cases h with
  | bare hcode =>
    exact (hcode.getLast?_ne (by simpa [HeaderLine.runsOn, HeaderLine.text]
          using hruns)).elim
  | noted hcode hnote => exact (hnote.getLast?_ne (ends_of_runsOn hruns)).elim
  | leading hindent htext hline =>
    exact ⟨_, htext, _, hline, endsOpen_of_commentBody (ends_of_runsOn hruns)⟩
  | trailing hcode hlead htext =>
    have hlast := ends_of_runsOn hruns
    rw [String.toList_append, List.getLast?_append] at hlast
    rename_i text
    cases hend : (WireSchema.trailing text).toList.getLast? with
    | none =>
      rw [hend, Option.none_or] at hlast
      exact (hlead.getLast?_ne hlast).elim
    | some last =>
      rw [hend, Option.some_or] at hlast
      exact ⟨text, htext, endsOpen_of_trailing (hend.trans hlast)⟩

theorem documented_docs {docs : Docs} {indent doc : String} (hindent : Quiet indent)
    (h : doc ∈ docs.allLines) : Documented docs.texts (docLine indent doc) := by
  rcases List.mem_append.mp h with h | h
  · exact .leading hindent List.mem_cons_self h
  · unfold Docs.verboseLines at h
    cases hverbose : docs.verbose with
    | none => simp [hverbose] at h
    | some text =>
      rw [hverbose] at h
      exact .leading hindent (List.mem_cons_of_mem _ (by simp [hverbose])) h

theorem documented_define {name note : String} (value : Nat) (hname : Quiet name)
    (hnote : Quiet note) : Documented texts (define name value note) := by
  refine .noted ?_ (quiet_append.mpr ⟨by decide, hnote⟩)
  simp only [quiet_append]
  exact ⟨⟨⟨⟨by decide, hname⟩, by decide⟩, quiet_toString value⟩, by decide⟩

theorem documented_defines {item : Resolved.Item} (h : item.Legible) :
    ∀ line ∈ defines item, Documented item.documentation line := by
  have hname := h.name.isIdentifier
  have hwidth := quiet_of_isIdentifier (capital_widthName hname).identifier
  have htype : Quiet (typeName item) := by
    cases item with
    | enum e => exact quiet_of_isIdentifier (capital_constantName hname).identifier
    | _ => exact quiet_of_isIdentifier hname
  cases item with
  | parameter q =>
    have hconstant := quiet_of_isIdentifier (capital_constantName hname).identifier
    intro line hline
    simp only [defines, parameterDefines, List.mem_append, List.mem_map, List.mem_cons,
        List.not_mem_nil, or_false] at hline
    rcases hline with ⟨doc, hdoc, rfl⟩ | rfl | rfl | rfl | rfl
    · exact documented_docs (by decide) (List.mem_append_right _ hdoc)
    · refine .trailing ?_ (by decide) List.mem_cons_self
      simp only [quiet_append]
      exact ⟨⟨⟨⟨by decide, hconstant⟩, by decide⟩, quiet_toString q.value⟩, by decide⟩
    · exact documented_define _ hwidth (quiet_append.mpr ⟨by decide, hconstant⟩)
    · refine documented_define _ (quiet_of_isIdentifier
          (capital_countWidthName hname).identifier) ?_
      simp only [quiet_append]
      exact ⟨⟨by decide, hconstant⟩, by decide⟩
    · refine documented_define _ (quiet_of_isIdentifier
          (capital_widthOneName hname).identifier) ?_
      exact quiet_append.mpr ⟨hwidth, by decide⟩
  | _ =>
    intro line hline
    rw [List.mem_singleton.mp hline]
    exact documented_define _ hwidth (quiet_append.mpr ⟨by decide, htype⟩)

theorem documented_enumerator {v : Resolved.Enumerator} (hname : CName v.name) :
    ∀ line ∈ enumeratorLines v, Documented v.docs.texts line := by
  intro line hline
  simp only [enumeratorLines, List.mem_append, List.mem_map, List.mem_singleton] at hline
  rcases hline with ⟨doc, hdoc, rfl⟩ | rfl
  · exact documented_docs (by decide) (List.mem_append_right _ hdoc)
  · refine .trailing ?_ (by decide) List.mem_cons_self
    simp only [quiet_append]
    exact ⟨⟨⟨⟨by decide, quiet_of_isIdentifier hname.isIdentifier⟩, by decide⟩,
          quiet_toString v.value⟩, by decide⟩

theorem quiet_declare {name : String} (h : Quiet name) (storage : Storage) :
    Quiet (storage.declare name) := by
  have htype := quiet_of_isIdentifier (isIdentifier_typeName storage)
  have hsuffix : Quiet storage.suffix := by
    cases storage with
    | bytes count =>
      simp only [Storage.suffix, quiet_append]
      exact ⟨⟨by decide, quiet_toString count⟩, by decide⟩
    | _ => decide
  simp only [Storage.declare, quiet_append]
  exact ⟨⟨⟨htype, by decide⟩, h⟩, hsuffix⟩

theorem documented_field {f : Resolved.Field} {lines : List HeaderLine}
    (h : fieldLines? f = some lines) (hname : CName f.name)
    (htypes : ∀ type, fieldTypeName? f.type = some type → CName type) :
    ∀ line ∈ lines, Documented f.docs.texts line := by
  obtain ⟨declaration, hdeclaration, rfl⟩ := fieldLines?_eq_some_iff.mp h
  have hquiet : Quiet declaration := by
    have hfield := quiet_of_isIdentifier hname.isIdentifier
    rcases fieldDeclaration?_eq_some_iff.mp hdeclaration with
      ⟨_, storage, _, rfl⟩ | ⟨type, htype, rfl⟩
    · exact quiet_declare hfield storage
    · simp only [quiet_append]
      exact ⟨⟨quiet_of_isIdentifier (htypes type htype).isIdentifier, by decide⟩, hfield⟩
  intro line hline
  rcases List.mem_append.mp hline with hline | hline
  · obtain ⟨doc, hdoc, rfl⟩ := List.mem_map.mp hline
    exact documented_docs (by decide) (List.mem_append_right _ hdoc)
  · rw [List.mem_singleton.mp hline]
    refine .trailing ?_ ?_ List.mem_cons_self
    · simp only [quiet_append]
      exact ⟨⟨by decide, hquiet⟩, by decide⟩
    · simp only [quiet_append]
      exact ⟨⟨by decide, quiet_toString f.width⟩, by decide⟩

theorem documented_leading {docs : Docs} :
    ∀ line ∈ docs.allLines.map (docLine ""), Documented docs.texts line := by
  intro line hline
  obtain ⟨doc, hdoc, rfl⟩ := List.mem_map.mp hline
  exact documented_docs (by decide) hdoc

theorem documented_closing {name : String} (h : isIdentifier name = true) :
    Documented texts { code := "\x7d " ++ name ++ ";" } := by
  refine .bare ?_
  simp only [quiet_append]
  exact ⟨⟨by decide, quiet_of_isIdentifier h⟩, by decide⟩

theorem documented_enumLines {e : Resolved.Enum} (h : (Resolved.Item.enum e).Legible) :
    ∀ line ∈ enumLines e, Documented (Resolved.Item.enum e).documentation line := by
  intro line hline
  simp only [enumLines, List.mem_append, List.mem_flatMap, List.mem_singleton] at hline
  rcases hline with ((hline | rfl) | ⟨v, hv, hline⟩) | rfl
  · exact (documented_leading line hline).mono fun text htext =>
      List.mem_append_left _ htext
  · exact .bare (by decide)
  · have hname : CName v.name := h.enumerators v hv
    refine (documented_enumerator hname line hline).mono fun text htext =>
      List.mem_append_right _ ?_
    exact List.mem_flatMap.mpr ⟨v, hv, htext⟩
  · exact documented_closing (capital_constantName h.name.isIdentifier).identifier

theorem documented_typedefLines {d : Resolved.Typedef} {lines : List HeaderLine}
    (h : typedefLines? d = some lines) (hname : CName d.name) :
    ∀ line ∈ lines, Documented d.docs.texts line := by
  obtain ⟨storage, _, rfl⟩ := typedefLines?_eq_some_iff.mp h
  intro line hline
  rcases List.mem_append.mp hline with hline | hline
  · exact documented_leading line hline
  · rw [List.mem_singleton.mp hline]
    refine .noted ?_ ?_
    · simp only [quiet_append]
      exact ⟨⟨by decide, quiet_declare (quiet_of_isIdentifier hname.isIdentifier)
            storage⟩, by decide⟩
    · simp only [quiet_append]
      exact ⟨⟨by decide, quiet_toString d.width⟩, by decide⟩

theorem documented_structLines {s : Resolved.Struct} {lines : List HeaderLine}
    (h : structLines? s = some lines) (hlegible : (Resolved.Item.struct s).Legible) :
    ∀ line ∈ lines, Documented (Resolved.Item.struct s).documentation line := by
  obtain ⟨parts, hparts, rfl⟩ := structLines?_eq_some_iff.mp h
  intro line hline
  simp only [List.mem_append, List.mem_flatten, List.mem_singleton] at hline
  rcases hline with ((hline | rfl) | ⟨part, hpart, hline⟩) | rfl
  · exact (documented_leading line hline).mono fun text htext =>
      List.mem_append_left _ htext
  · refine .bare ?_
    simp only [quiet_append]
    exact ⟨⟨by decide, quiet_of_isIdentifier hlegible.name.isIdentifier⟩, by decide⟩
  · obtain ⟨f, hf, hfield⟩ := exists_of_forall₂_left (mapM_eq_some_iff.mp hparts).flip hpart
    have hname : CName f.name := hlegible.fields f hf
    have hdocumented := documented_field hfield hname (hlegible.types s rfl f hf) line hline
    refine hdocumented.mono fun text htext => List.mem_append_right _ ?_
    exact List.mem_flatMap.mpr ⟨f, hf, htext⟩
  · exact documented_closing hlegible.name.isIdentifier

/-- The lines of a construct have no comments but those from the documentation of the
    item. -/
theorem documented_construct {item : Resolved.Item} {lines : List HeaderLine}
    (h : construct? item = some lines) (hlegible : item.Legible) :
    ∀ line ∈ lines, Documented item.documentation line := by
  have hblank : Documented item.documentation blankLine := .bare (by decide)
  cases item with
  | parameter q =>
    cases h
    simp
  | enum e =>
    cases h
    exact List.forall_mem_cons.mpr ⟨hblank, documented_enumLines hlegible⟩
  | typedef d =>
    obtain ⟨rest, hrest, rfl⟩ := Option.map_eq_some_iff.mp h
    exact List.forall_mem_cons.mpr ⟨hblank, documented_typedefLines hrest hlegible.name⟩
  | struct s =>
    obtain ⟨rest, hrest, rfl⟩ := Option.map_eq_some_iff.mp h
    exact List.forall_mem_cons.mpr ⟨hblank, documented_structLines hrest hlegible⟩

theorem documented_packageDocs (p : Package) :
    ∀ line ∈ packageDocs p, Documented p.documentation line := by
  intro line hline
  unfold packageDocs at hline
  split at hline
  · rcases List.mem_append.mp hline with hline | hline
    · obtain ⟨doc, hdoc, rfl⟩ := List.mem_map.mp hline
      rcases List.mem_append.mp hdoc with hdoc | hdoc
      · -- an absent summary is written as the empty text, which has no lines
        cases hsummary : p.docSummary with
        | none => simp [hsummary, Text.lines, Text.lineChars, Text.linesFrom] at hdoc
        | some text =>
          rw [hsummary] at hdoc
          exact .leading (by decide) (by simp [Package.documentation, hsummary]) hdoc
      · cases hverbose : p.docVerbose with
        | none => simp [hverbose, Docs.verboseLines] at hdoc
        | some text =>
          simp only [hverbose, Docs.verboseLines] at hdoc
          exact .leading (by decide) (by simp [Package.documentation, hverbose]) hdoc
    · rw [List.mem_singleton.mp hline]
      exact .bare (by decide)
  · cases hline

/-- Every comment between the opening of a header and its end is quiet or comes from the
    documentation. -/
theorem documented_body {p : Package} {body : List HeaderLine} (h : body? p = some body)
    (hlegible : ∀ item ∈ p.items, item.Legible) :
    ∀ line ∈ body, Documented p.documentation line := by
  have hitem : ∀ item ∈ p.items, ∀ line, Documented item.documentation line →
      Documented p.documentation line := by
    intro item hitem line hdocumented
    refine hdocumented.mono fun text htext => List.mem_append_right _ ?_
    exact List.mem_flatMap.mpr ⟨item, hitem, htext⟩
  obtain ⟨constructs, hconstructs, rfl⟩ := body?_eq_some_iff.mp h
  intro line hline
  simp only [List.mem_append, List.mem_flatMap, List.mem_flatten] at hline
  rcases hline with (hline | ⟨item, hmem, hline⟩) | ⟨construct, hconstruct, hline⟩
  · exact documented_packageDocs p line hline
  · exact hitem item hmem line (documented_defines (hlegible item hmem) line hline)
  · obtain ⟨item, hmem, hfound⟩ :=
      exists_of_forall₂_left (mapM_eq_some_iff.mp hconstructs).flip hconstruct
    exact hitem item hmem line (documented_construct hfound (hlegible item hmem) line hline)

/-! ### The text of a header -/

def sourceText (source : String) : String :=
  "//" ++ (" Autogenerated from " ++ source ++ " by yisc") ++ "\n"

/-- What stands between the line that names the source and the items. -/
def guardText (name : String) : String :=
  "//\n// Do Not Edit\n//\n" ++
    ("#ifndef " ++ guardName name ++ "\n" ++
      ("#define " ++ guardName name ++ "\n" ++ "\n#include <stdint.h>\n\n"))

def endText (name : String) : String := "\n" ++ ("#endif // " ++ guardName name ++ "\n")

/-- The text of the header of a package whose items have the text `body`. -/
def enclose (p : Package) (body : String) : String :=
  sourceText p.source ++ guardText p.name ++ body ++ endText p.name

theorem textChars_code (code : String) :
    textChars [⟨code, none⟩] = (code ++ "\n").toList := by
  simp [textChars, HeaderLine.text]

theorem textChars_comment (comment : String) :
    textChars [⟨"", some comment⟩] = ("//" ++ comment ++ "\n").toList := by
  simp [textChars, HeaderLine.text]

theorem textChars_append_eq {first second : List HeaderLine} {s t : String}
    (hfirst : textChars first = s.toList) (hsecond : textChars second = t.toList) :
    textChars (first ++ second) = (s ++ t).toList := by
  rw [textChars_append, hfirst, hsecond, String.toList_append]

theorem textChars_opening (p : Package) :
    textChars (opening p) = (sourceText p.source ++ guardText p.name).toList := by
  have hnote : textChars [⟨"", some ""⟩, ⟨"", some " Do Not Edit"⟩, ⟨"", some ""⟩] =
      "//\n// Do Not Edit\n//\n".toList := by decide
  have hinclude : textChars [blankLine, ⟨"#include <stdint.h>", none⟩, blankLine] =
      "\n#include <stdint.h>\n\n".toList := by decide
  exact textChars_append_eq (textChars_comment _)
    (textChars_append_eq hnote (textChars_append_eq (textChars_code _)
        (textChars_append_eq (textChars_code _) hinclude)))

theorem textChars_ending (p : Package) :
    textChars [blankLine, endLine p] = (endText p.name).toList := by
  simp [textChars, blankLine, endLine, HeaderLine.text, endText]

theorem text?_eq_some_iff {p : Package} {text : String} :
    text? p = some text ↔
      ∃ lines, body? p = some lines ∧
        enclose p (String.ofList (textChars lines)) = text := by
  have henclose : ∀ lines, String.ofList
      (textChars (opening p ++ lines ++ [blankLine, endLine p])) =
      enclose p (String.ofList (textChars lines)) := by
    intro lines
    apply String.toList_inj.mp
    rw [String.toList_ofList, textChars_append, textChars_append, textChars_opening,
      textChars_ending, enclose]
    simp only [String.toList_append, String.toList_ofList]
  rw [text?_eq, lines?, Option.map_map, Option.map_eq_some_iff]
  simp only [henclose, Function.comp_apply]

theorem wordLines_textChars {lines : List HeaderLine}
    (h : ∀ line ∈ lines, '\n' ∉ line.text.toList) :
    wordLines (String.ofList (textChars lines)) = words lines := by
  induction lines with
  | nil => rfl
  | cons line rest ih =>
    obtain ⟨hline, hrest⟩ := List.forall_mem_cons.mp h
    have htext : String.ofList (textChars (line :: rest)) =
        line.text ++ "\n" ++ String.ofList (textChars rest) := by
      apply String.toList_inj.mp
      simp [textChars_cons]
    rw [htext, wordLines_append, wordLines_of_notMem hline, ih hrest]
    exact (words_append [line] rest).symm

theorem isLines_textChars (lines : List HeaderLine) :
    IsLines (String.ofList (textChars lines)) := by
  rcases List.eq_nil_or_concat lines with rfl | ⟨init, last, rfl⟩
  · rfl
  · simp [IsLines, textChars]

/-- Split at its line feeds, the text of the items is the words of their constants and
    then those of their constructs: no documentation adds a line of code, and none takes
    one away. -/
theorem exists_wordLines {p : Package} {text : String} (h : text? p = some text)
    (hlegible : ∀ item ∈ p.items, item.Legible) :
    ∃ body constructs, text = enclose p body ∧ IsLines body ∧
      List.Forall₂ ConstructWords p.items constructs ∧
      wordLines body = p.items.flatMap constantWords ++ constructs.flatten := by
  obtain ⟨lines, hlines, rfl⟩ := text?_eq_some_iff.mp h
  obtain ⟨constructs, hconstructs, hwords⟩ := exists_words_body hlines hlegible
  refine ⟨_, constructs, rfl, isLines_textChars lines, hconstructs, ?_⟩
  rw [wordLines_textChars, hwords]
  intro line hline
  exact (documented_body hlines hlegible line hline).clean.newLine_notMem_text

end Header

end WireSchema
