import WireSchema.Proofs.Packages

/-!
# Documentation and the program of a header

Documentation is written into comments only, so two packages that differ in nothing else
should have the same program.  They do, unless a line of documentation ends in a backslash:
it is written as it is, and where code follows on the next line, the comment takes that
code in.  The main theorem says exactly when this happens.
-/

namespace WireSchema

/-! ### Packages without documentation -/

namespace Resolved

def Enumerator.undocumented (v : Enumerator) : Enumerator := { v with docs := {} }

def Field.undocumented (f : Field) : Field := { f with docs := {} }

namespace Item

def undocumented : Item → Item
  | .parameter q => .parameter { q with docs := {} }
  | .enum e => .enum { e with docs := {}, values := e.values.map Enumerator.undocumented }
  | .typedef d => .typedef { d with docs := {} }
  | .struct s => .struct { s with docs := {}, fields := s.fields.map Field.undocumented }

theorem memberNames_undocumented (item : Item) :
    item.undocumented.memberNames = item.memberNames := by
  cases item with
  | parameter q => rfl
  | enum e => simp [undocumented, memberNames, Function.comp_def, Enumerator.undocumented]
  | typedef d => rfl
  | struct s => simp [undocumented, memberNames, Function.comp_def, Field.undocumented]

theorem Legible.undocumented {item : Item} (h : item.Legible) :
    item.undocumented.Legible := by
  constructor
  · cases item <;> exact h.name
  · rw [memberNames_undocumented]
    exact h.members
  · intro s hs f hf type hnamed
    cases item <;> cases hs
    obtain ⟨g, hg, rfl⟩ := List.mem_map.mp hf
    exact h.types _ rfl g hg type hnamed

end Item

end Resolved

namespace Package

def undocumented (p : Package) : Package :=
  { p with
    docSummary := none, docVerbose := none,
    items := p.items.map Resolved.Item.undocumented }

end Package

namespace Header

/-! ### The same code without documentation -/

theorem codes_congr {lines others : List HeaderLine}
    (h : lines.map HeaderLine.code = others.map HeaderLine.code) :
    codes lines = codes others := by
  unfold codes
  rw [← Function.comp_def String.toList HeaderLine.code, ← List.map_map, h, List.map_map]

theorem codes_docs {indent : String} (hindent : holdsCode indent.toList = false)
    (docs : List String) : codes (docs.map (docLine indent)) = [] := by
  simp [codes, docLine, hindent]

theorem codes_parts {α : Type} {f : α → Option (List HeaderLine)} {g : α → α}
    (h : ∀ x, (f (g x)).map codes = (f x).map codes) (xs : List α) :
    ((xs.map g).mapM f).map (fun parts => codes parts.flatten) =
      (xs.mapM f).map fun parts => codes parts.flatten := by
  induction xs with
  | nil => rfl
  | cons x xs ih =>
    rw [List.map_cons, List.mapM_cons, List.mapM_cons]
    rcases none_or_some_of_map_eq (h x) with
      ⟨hfirst, hplain⟩ | ⟨first, plain, hfirst, hplain, hcodes⟩
    · rw [hfirst, hplain]
      rfl
    · rw [hfirst, hplain]
      rcases none_or_some_of_map_eq ih with
        ⟨hrest, hothers⟩ | ⟨rest, others, hrest, hothers, hparts⟩
      · rw [hrest, hothers]
        rfl
      · simp [hrest, hothers, hcodes, hparts]

theorem codes_defines_undocumented (item : Resolved.Item) :
    codes (defines item.undocumented) = codes (defines item) := by
  have hindent : holdsCode "".toList = false := by decide
  cases item with
  | parameter q =>
    simp only [Resolved.Item.undocumented, defines, parameterDefines, codes_append,
        codes_docs hindent, List.nil_append]
    apply codes_congr
    simp only [List.map_cons, List.map_nil, define]
  | _ =>
    simp only [Resolved.Item.undocumented, defines, typeName, Resolved.Item.name,
        Resolved.Item.width]

theorem codes_enumerator_undocumented (v : Resolved.Enumerator) :
    codes (enumeratorLines v.undocumented) = codes (enumeratorLines v) := by
  have hindent : holdsCode "    ".toList = false := by decide
  simp only [enumeratorLines, codes_append, codes_docs hindent, List.nil_append]
  apply codes_congr
  simp only [List.map_cons, List.map_nil, Resolved.Enumerator.undocumented]

theorem codes_enumerators_undocumented (values : List Resolved.Enumerator) :
    codes ((values.map Resolved.Enumerator.undocumented).flatMap enumeratorLines) =
      codes (values.flatMap enumeratorLines) := by
  induction values with
  | nil => rfl
  | cons v values ih =>
    simp only [List.map_cons, List.flatMap_cons, codes_append,
        codes_enumerator_undocumented, ih]

theorem codes_field_undocumented (f : Resolved.Field) :
    (fieldLines? f.undocumented).map codes = (fieldLines? f).map codes := by
  have hindent : holdsCode "    ".toList = false := by decide
  have hdeclaration : fieldDeclaration? f.undocumented = fieldDeclaration? f := rfl
  unfold fieldLines?
  rw [hdeclaration]
  cases fieldDeclaration? f with
  | none => rfl
  | some declaration =>
    simp only [Option.bind_eq_bind, Option.bind_some, Option.pure_def, Option.map_some,
        codes_append, codes_docs hindent, List.nil_append, Option.some.injEq]
    apply codes_congr
    simp only [List.map_cons, List.map_nil]

/-- Documentation adds no code to the construct of an item. -/
theorem codes_construct_undocumented (item : Resolved.Item) :
    (construct? item.undocumented).map codes = (construct? item).map codes := by
  have hindent : holdsCode "".toList = false := by decide
  cases item with
  | parameter q => rfl
  | enum e =>
    simp only [Resolved.Item.undocumented, construct?, enumLines, Option.map_some,
        codes_cons blankLine, codes_append, codes_docs hindent,
        codes_enumerators_undocumented]
  | typedef d =>
    simp only [Resolved.Item.undocumented, construct?, typedefLines?]
    cases Storage.ofWidth? d.width with
    | none => simp only [Option.bind_eq_bind, Option.bind_none, Option.map_none]
    | some storage =>
      simp only [Option.bind_eq_bind, Option.bind_some, Option.pure_def, Option.map_some,
          codes_cons blankLine, codes_append, codes_docs hindent]
  | struct s =>
    simp only [Resolved.Item.undocumented, construct?, structLines?]
    rcases none_or_some_of_map_eq (codes_parts codes_field_undocumented s.fields) with
      ⟨hrest, hothers⟩ | ⟨rest, others, hrest, hothers, hparts⟩
    · simp only [hrest, hothers, Option.bind_eq_bind, Option.bind_none, Option.map_none]
    · simp only [hrest, hothers, Option.bind_eq_bind, Option.bind_some, Option.pure_def,
          Option.map_some, codes_cons blankLine, codes_append, codes_docs hindent, hparts]

theorem codes_packageDocs (p : Package) : codes (packageDocs p) = [] := by
  have hindent : holdsCode "".toList = false := by decide
  unfold packageDocs
  split
  · rw [codes_append, codes_docs hindent]
    rfl
  · rfl

/-- Documentation adds no code to the lines of a header and takes none away. -/
theorem codes_body_undocumented (p : Package) :
    (body? p.undocumented).map codes = (body? p).map codes := by
  have hdefines :
      codes (p.undocumented.items.flatMap defines) = codes (p.items.flatMap defines) := by
    change codes ((p.items.map Resolved.Item.undocumented).flatMap defines) = _
    induction p.items with
    | nil => rfl
    | cons item items ih =>
      simp only [List.map_cons, List.flatMap_cons, codes_append, ih,
          codes_defines_undocumented]
  have hconstructs :
      (p.undocumented.items.mapM construct?).map (fun parts => codes parts.flatten) =
        (p.items.mapM construct?).map fun parts => codes parts.flatten :=
    codes_parts codes_construct_undocumented p.items
  unfold body?
  rcases none_or_some_of_map_eq hconstructs with
    ⟨hrest, hothers⟩ | ⟨rest, others, hrest, hothers, hparts⟩
  · rw [hrest, hothers]
    rfl
  · simp only [hrest, hothers, Option.bind_eq_bind, Option.bind_some, Option.pure_def,
        Option.map_some, codes_append, codes_packageDocs, hdefines, hparts]

/-! ### The program of a header -/

theorem getLast?_textChars (lines : List HeaderLine) :
    (textChars lines).getLast? ≠ some '\\' := by
  rcases List.eq_nil_or_concat lines with rfl | ⟨rest, line, rfl⟩
  · simp [textChars]
  · simp [textChars]

/-- Whatever stands before it, an empty line ends a part of the program. -/
theorem codeLines_blankLine (lines : List HeaderLine) (rest : List Char) :
    codeLines (logicalLines (textChars (lines ++ [blankLine]) ++ rest)) =
      codeLines (logicalLines (textChars lines)) ++ codeLines (logicalLines rest) := by
  have hblank : textChars (lines ++ [blankLine]) ++ rest = textChars lines ++
      '\n' :: rest := by
    rw [textChars_append, List.append_assoc]
    rfl
  rw [hblank, codeLines_logicalLines_append (getLast?_textChars lines)]

/-- The program that has the code between what the opening and the end of a header hold. -/
def framed (p : Package) (code : List (List Char)) : List String :=
  (codeLines (logicalLines (textChars (opening p).dropLast)) ++ code ++
    codeLines (logicalLines (textChars [endLine p]))).map String.ofList

theorem framed_inj {p : Package} {code code' : List (List Char)} :
    framed p code = framed p code' ↔ code = code' := by
  have hinjective : Function.Injective String.ofList :=
    fun _ _ h => String.ofList_injective h
  unfold framed
  rw [(List.map_injective_iff.mpr hinjective).eq_iff, List.append_left_inj,
      List.append_right_inj]

theorem program_lines {p : Package} {body : List HeaderLine}
    (h : ∀ line ∈ body, line.Clean) :
    program (String.ofList (textChars (opening p ++ body ++ [blankLine, endLine p]))) =
      framed p (codes (survivors false body)) := by
  have hopening : opening p = (opening p).dropLast ++ [blankLine] := rfl
  have hsplit : textChars (opening p ++ body ++ [blankLine, endLine p]) =
      textChars ((opening p).dropLast ++ [blankLine]) ++
        (textChars (body ++ [blankLine]) ++ textChars [endLine p]) := by
    rw [← hopening]
    simp only [← textChars_append, List.append_assoc, List.singleton_append]
  unfold program framed
  rw [String.toList_ofList, hsplit, codeLines_blankLine, codeLines_blankLine,
      (codeLines_logicalLines h).1, List.append_assoc]

theorem map_program_text? {p : Package} (h : ∀ item ∈ p.items, item.Legible) :
    (text? p).map program = (body? p).map fun body =>
      framed p (codes (survivors false body)) := by
  rw [text?_eq, lines?, Option.map_map, Option.map_map]
  apply Option.map_congr
  intro body hbody
  rw [Function.comp_apply, Function.comp_apply]
  exact program_lines fun line hline => (documented_body hbody h line hline).clean

theorem sealed_of_forall {lines : List HeaderLine}
    (h : ∀ line ∈ lines, line.runsOn = false) : Sealed lines := by
  induction lines with
  | nil => exact .nil
  | cons line rest ih =>
    refine List.isChain_cons.mpr ⟨?_, ih fun other hother =>
        h other (List.mem_cons_of_mem line hother)⟩
    intro next _ hruns
    rw [h line List.mem_cons_self] at hruns
    cases hruns

theorem runsOn_opening (p : Package) : ∀ line ∈ opening p, line.runsOn = false := by
  simp [opening, HeaderLine.runsOn, HeaderLine.text, guardName, blankLine,
      List.getLast?_cons, List.getLast?_append]

/-- Only the lines of the items can hide code: the opening of a header and its end are
    sealed. -/
theorem sealed_lines_iff {p : Package} {body : List HeaderLine} :
    Sealed (opening p ++ body ++ [blankLine, endLine p]) ↔ Sealed body := by
  have hopening : Sealed (opening p) := sealed_of_forall (runsOn_opening p)
  have hending : Sealed [blankLine, endLine p] := by
    refine List.isChain_cons.mpr ⟨fun _ _ hruns => ?_, .singleton _⟩
    cases hruns
  have hblank : holdsCode blankLine.code.toList = false := rfl
  unfold Sealed at hopening hending ⊢
  rw [List.append_assoc, List.isChain_append, List.isChain_append]
  constructor
  · rintro ⟨_, ⟨hbody, _⟩, _⟩
    exact hbody
  · intro hbody
    refine ⟨hopening, ⟨hbody, hending, ?_⟩, ?_⟩
    · rintro line _ _ ⟨⟩ _
      exact hblank
    · intro line hline next _ hruns
      rw [runsOn_opening p line (List.mem_of_getLast? hline)] at hruns
      cases hruns

theorem sealed_of_documented {lines : List HeaderLine} {texts : List String}
    (h : ∀ line ∈ lines, Documented texts line)
    (htexts : ∀ text ∈ texts, ∀ doc ∈ Text.lines text, endsOpen doc = false) :
    Sealed lines := by
  apply sealed_of_forall
  intro line hline
  by_contra hruns
  obtain ⟨text, htext, doc, hdoc, hopen⟩ := (h line hline).endsOpen (by simpa using hruns)
  rw [htexts text htext doc hdoc] at hopen
  cases hopen

/-- What is left of documentation that was taken away is empty texts. -/
theorem eq_empty_of_mem_documentation {p : Package} {text : String}
    (h : text ∈ p.undocumented.documentation) : text = "" := by
  have htexts : ∀ other ∈ Docs.texts {}, other = "" := by simp [Docs.texts]
  simp only [Package.documentation, Package.undocumented, Option.toList_none,
      List.nil_append, List.mem_flatMap, List.mem_map] at h
  obtain ⟨_, ⟨item, _, rfl⟩, h⟩ := h
  cases item with
  | parameter q => exact htexts text h
  | typedef d => exact htexts text h
  | enum e =>
    rcases List.mem_append.mp h with h | h
    · exact htexts text h
    · obtain ⟨_, hv, h⟩ := List.mem_flatMap.mp h
      obtain ⟨v, _, rfl⟩ := List.mem_map.mp hv
      exact htexts text h
  | struct s =>
    rcases List.mem_append.mp h with h | h
    · exact htexts text h
    · obtain ⟨_, hf, h⟩ := List.mem_flatMap.mp h
      obtain ⟨f, _, rfl⟩ := List.mem_map.mp hf
      exact htexts text h

/-- Without documentation nothing is lost: the program has all code of the header. -/
theorem map_program_undocumented {p : Package} (h : ∀ item ∈ p.items, item.Legible) :
    (text? p.undocumented).map program = (body? p).map fun body =>
      framed p (codes body) := by
  have hlegible : ∀ item ∈ p.undocumented.items, item.Legible := by
    intro item hitem
    obtain ⟨documented, hmem, rfl⟩ := List.mem_map.mp hitem
    exact (h documented hmem).undocumented
  have hall : (text? p.undocumented).map program =
      (body? p.undocumented).map fun body => framed p (codes body) := by
    rw [map_program_text? hlegible]
    apply Option.map_congr
    intro body hbody
    have hsealed : Sealed body := by
      apply sealed_of_documented (documented_body hbody hlegible)
      intro text htext doc hdoc
      rw [eq_empty_of_mem_documentation htext] at hdoc
      cases hdoc
    rw [(codes_survivors_eq_iff false body).mpr ⟨by simp, hsealed⟩]
    rfl
  have hcodes := congrArg (Option.map (framed p)) (codes_body_undocumented p)
  rw [hall]
  simpa only [Option.map_map, Function.comp_def] using hcodes

theorem map_program_eq_iff {p : Package} (h : ∀ item ∈ p.items, item.Legible) :
    (text? p).map program = (text? p.undocumented).map program ↔
      ∀ lines, lines? p = some lines → Sealed lines := by
  rw [map_program_text? h, map_program_undocumented h, lines?]
  cases body? p with
  | none => simp
  | some body =>
    have hiff := codes_survivors_eq_iff false body
    simp only [Option.map_some, Option.some.injEq, framed_inj, hiff, forall_eq',
        sealed_lines_iff]
    simp

theorem map_program_eq_undocumented {p : Package} (h : ∀ item ∈ p.items, item.Legible)
    (hdocs : ∀ text ∈ p.documentation, ∀ doc ∈ Text.lines text, endsOpen doc = false) :
    (text? p).map program = (text? p.undocumented).map program := by
  rw [map_program_eq_iff h, lines?]
  intro lines hlines
  obtain ⟨body, hbody, rfl⟩ := Option.map_eq_some_iff.mp hlines
  rw [sealed_lines_iff]
  exact sealed_of_documented (documented_body hbody h) hdocs

end Header

/-- **When documentation changes the program of a header.**  The program of a package that
    is resolved is the one that it would have without documentation exactly if no line of
    its header that ends in a backslash stands directly above code.  So two packages that
    differ only in documentation have the same program, or both have no header, if no line
    of their documentation ends in a backslash, white space after it left aside. -/
theorem documentation_inert (name source : String) (schema other : Schema)
    (tracing tracing' : Tracing) (p q : Package)
    (hp : (Package.resolve name source schema tracing).outcome = .ok p)
    (hq : (Package.resolve name source other tracing').outcome = .ok q)
    (h : p.undocumented = q.undocumented) :
    ((Header.text? p).map Header.program =
        (Header.text? p.undocumented).map Header.program ↔
      ∀ lines, Header.lines? p = some lines → Header.Sealed lines) ∧
      ((∀ text ∈ p.documentation ++ q.documentation,
          ∀ line ∈ Text.lines text, endsOpen line = false) →
        (Header.text? p).map Header.program = (Header.text? q).map Header.program) := by
  have hlegible := legible_of_resolve hp
  have hlegible' := legible_of_resolve hq
  refine ⟨Header.map_program_eq_iff hlegible, ?_⟩
  intro hdocs
  have hsame : (Header.text? p).map Header.program =
      (Header.text? p.undocumented).map Header.program := by
    apply Header.map_program_eq_undocumented hlegible
    exact fun text htext => hdocs text (List.mem_append_left _ htext)
  have hsame' : (Header.text? q).map Header.program =
      (Header.text? q.undocumented).map Header.program := by
    apply Header.map_program_eq_undocumented hlegible'
    exact fun text htext => hdocs text (List.mem_append_right _ htext)
  rw [hsame, hsame', h]

/-- A parameter and a struct of one field, all documented in the same way. -/
def queueSchema (docs : Docs) : Schema where
  docSummary := some docs.summary
  docVerbose := docs.verbose
  decls :=
    [.parameter { name := "DEPTH", value := .literal 4, docs := docs },
     .struct { name := "entry_t", docs := docs,
               fields := [{ name := "slot", type := .logic (.ref "DEPTH" .width),
                            docs := docs }] }]

/-- Lines that look like code and marks of all kinds within a line leave the program as it
    is. -/
theorem queue_program_unchanged :
    ∃ p q, (Package.resolve "queue" "queue.yis"
          (queueSchema ⟨"In C:\\dir\n#undef DEPTH", some "*/ int x; // \\n \n\n\\."⟩)
          {}).outcome = .ok p ∧
      (Package.resolve "queue" "queue.yis" (queueSchema {}) {}).outcome = .ok q ∧
      p.undocumented = q.undocumented ∧
      (Header.text? p).map Header.program = (Header.text? q).map Header.program := by
  have hinert := documentation_inert "queue" "queue.yis"
    (queueSchema ⟨"In C:\\dir\n#undef DEPTH", some "*/ int x; // \\n \n\n\\."⟩)
    (queueSchema {}) {} {} _ _ rfl rfl rfl
  exact ⟨_, _, rfl, rfl, rfl, hinert.2 (by decide)⟩

/-- A summary that ends in a backslash takes in the line after it: the constant of the
    width is not defined, and the struct loses its first and its last line. -/
theorem queue_constant_hidden :
    ∃ p q, (Package.resolve "queue" "queue.yis"
          (queueSchema { summary := "In C:\\dir\\" }) {}).outcome = .ok p ∧
      (Package.resolve "queue" "queue.yis" (queueSchema {}) {}).outcome = .ok q ∧
      p.undocumented = q.undocumented ∧
      (Header.text? p).map Header.program ≠ (Header.text? q).map Header.program := by
  have hp : (Package.resolve "queue" "queue.yis"
      (queueSchema { summary := "In C:\\dir\\" }) {}).outcome = .ok _ := rfl
  have hq : (Package.resolve "queue" "queue.yis" (queueSchema {}) {}).outcome = .ok _ := rfl
  refine ⟨_, _, hp, hq, rfl, ?_⟩
  intro hsame
  rw [Header.map_program_eq_undocumented (legible_of_resolve hq) (by decide)] at hsame
  have hsealed := (Header.map_program_eq_iff (legible_of_resolve hp)).mp hsame _ rfl
  exact absurd hsealed (by decide)

end WireSchema
