import WireSchema.Proofs.HeaderNames

/-!
# Macros and structs of a header

A macro replaces its name wherever the name stands after the definition, in members and
tags of structs as well.  Registration compares the constants with each other, with
enumerators and with types, and not with members and tags.  Reading both off the text of a
header shows when a macro rewrites a struct; names with a lower-case letter are safe,
because no macro has one.

The name of a package stands in the text in capitals and may hold line feeds.  What
follows one is a line of its own, and it defines no macro (`macroNames_of_capitals`).
-/

namespace WireSchema

/-! ### Upper case has no small letters -/

theorem isLower_iff {c : Char} : c.isLower = true ↔ 97 ≤ c.toNat ∧ c.toNat ≤ 122 := by
  change (decide (97 ≤ c.val) && decide (c.val ≤ 122)) = true ↔ 97 ≤ c.val.toNat ∧
    c.val.toNat ≤ 122
  simp [UInt32.le_iff_toNat_le]

theorem toNat_ofNat_cases (n : Nat) :
    (Char.ofNat n).toNat = n ∨ (Char.ofNat n).toNat = 0 := by
  by_cases hvalid : n.isValidChar
  · left
    rw [Char.ofNat, dif_pos hvalid]
    rfl
  · right
    rw [Char.ofNat, dif_neg hvalid]
    rfl

namespace Text

/-- A code point of no small letter of ASCII. -/
def isNoSmall (n : Nat) : Bool := decide (n < 97) || decide (122 < n)

/-- What holds of a code point and of everything in the tables holds of its upper-case
    code points. -/
theorem forall_upperPoints {P : Nat → Prop} {n : Nat} (hself : P n)
    (hexpansions : ∀ e ∈ upperExpansions, ∀ m ∈ e.2, P m)
    (hruns : ∀ r ∈ upperRuns, r.1 ≤ n → n ≤ r.2.1 → P ((n : Int) + r.2.2.2).toNat) :
    ∀ m ∈ upperPoints n, P m := by
  unfold upperPoints
  intro m hm
  cases hlookup : upperExpansions.lookup n with
  | some points =>
    obtain ⟨before, after, hsplit, _⟩ := List.lookup_eq_some_iff.mp hlookup
    rw [hlookup] at hm
    exact hexpansions (n, points) (by simp [hsplit]) m hm
  | none =>
    simp only [hlookup] at hm
    split at hm
    · rename_i r hfind
      have hrange := List.find?_some hfind
      rw [decide_eq_true_eq] at hrange
      rw [List.mem_singleton.mp hm]
      exact hruns r (List.mem_of_find?_eq_some hfind) hrange.1 hrange.2.1
    · rw [List.mem_singleton.mp hm]
      exact hself

theorem isNoSmall_upperPoints {n : Nat} (hn : 128 ≤ n) :
    ∀ m ∈ upperPoints n, isNoSmall m = true := by
  have hexpansions : upperExpansions.all (fun e => e.2.all isNoSmall) = true := by
    decide +kernel
  have hruns : upperRuns.all (fun r => decide ((r.2.1 : Int) + r.2.2.2 < 97) ||
        decide (122 < (r.1 : Int) + r.2.2.2)) = true := by decide +kernel
  refine forall_upperPoints ?_ ?_ ?_
  · simp only [isNoSmall, Bool.or_eq_true, decide_eq_true_eq]
    omega
  · exact fun e he => List.all_eq_true.mp (List.all_eq_true.mp hexpansions e he)
  · intro r hr hfirst hlast
    have hrun := List.all_eq_true.mp hruns r hr
    simp only [isNoSmall, Bool.or_eq_true, decide_eq_true_eq] at hrun ⊢
    omega

theorem isLower_upperChar (c : Char) : ∀ d ∈ upperChar c, d.isLower = false := by
  unfold upperChar
  intro d hd
  by_cases hascii : c.toNat < 128
  · rw [if_pos hascii] at hd
    rw [List.mem_singleton.mp hd]
    exact of_ascii (motive := fun c => c.toUpper.isLower = false) (by decide) hascii
  · rw [if_neg hascii] at hd
    obtain ⟨m, hm, rfl⟩ := List.mem_map.mp hd
    have hsmall := isNoSmall_upperPoints (by omega) m hm
    simp only [isNoSmall, Bool.or_eq_true, decide_eq_true_eq] at hsmall
    by_contra hlower
    obtain ⟨hfirst, hlast⟩ := isLower_iff.mp (by simpa using hlower)
    rcases toNat_ofNat_cases m with hvalid | hnull <;> omega

/-! ### First words -/

theorem exists_wordsFrom {word : List Char} (hword : word ≠ []) (cs : List Char) :
    ∃ more,
      wordsFrom word cs = (word.reverse ++ cs.takeWhile fun c => !isBlank c) :: more := by
  induction cs generalizing word with
  | nil => exact ⟨[], by simp [wordsFrom, hword]⟩
  | cons c cs ih =>
    by_cases hc : isBlank c = true
    · exact ⟨wordsFrom [] cs, by simp [wordsFrom, hc, hword]⟩
    · obtain ⟨more, hmore⟩ := ih (List.cons_ne_nil c word)
      exact ⟨more, by simp [wordsFrom, hc, hmore]⟩

end Text

/-- The tag of a struct and the names of its members; other items have none. -/
def Resolved.Item.structNames : Resolved.Item → List String
  | .struct s => ("_" ++ s.name) :: s.fields.map Resolved.Field.name
  | _ => []

/-- The constants of an item have no lower-case letters. -/
theorem Resolved.Item.Legible.capital {item : Resolved.Item} (h : item.Legible) :
    ∀ name ∈ item.constantNames, Capital name := by
  have hname := h.name.isIdentifier
  cases item with
  | parameter q =>
    intro name hmem
    simp only [constantNames, List.mem_cons, List.not_mem_nil, or_false] at hmem
    rcases hmem with rfl | rfl | rfl | rfl
    · exact capital_constantName hname
    · exact capital_widthName hname
    · exact capital_countWidthName hname
    · exact capital_widthOneName hname
  | _ =>
    intro name hmem
    rw [List.mem_singleton.mp hmem]
    exact capital_widthName hname

namespace Header

/-! ### Reading macros and structs -/

def macroName? : List String → Option String
  | first :: second :: _ => if first = "#define" then leadingName? second else none
  | _ => none

def macroNames (text : String) : List String := (wordLines text).filterMap macroName?

def structNames (text : String) : List String :=
  (structs (wordLines text)).flatMap fun found => found.1 :: memberNames found.2

/-- The macro of the include guard of a package: the identifier that the guard begins
    with. -/
def guardMacro (package : String) : String :=
  String.ofList ((guardName package).toList.takeWhile isIdentifierRest)

theorem takeWhile_codeChars {rest : List Char}
    (h : ∀ c ∈ rest.head?, isIdentifierRest c = false) :
    ((codeChars rest).takeWhile fun c => !Text.isBlank c).takeWhile isIdentifierRest =
      [] := by
  unfold codeChars
  split
  · rfl
  · rename_i c others _
    have hc : isIdentifierRest c = false := h c rfl
    by_cases hblank : Text.isBlank c = true
    · simp [hblank]
    · simp [hblank, hc]
  · rfl

/-- The first word of code begins with the identifier that the text begins with, although
    more may be attached to it. -/
theorem exists_wordChars {run rest : List Char} (hrun : run ≠ [])
    (hidentifier : ∀ c ∈ run, isIdentifierRest c = true)
    (hrest : ∀ c ∈ rest.head?, isIdentifierRest c = false) :
    ∃ first more, Text.wordChars (codeChars (run ++ rest)) = first :: more ∧
      first.takeWhile isIdentifierRest = run := by
  have hplain : ∀ c ∈ run, Text.isBlank c = false ∧ c ≠ '/' := by
    intro c hc
    simpa [isPlain] using isPlain_of_isIdentifierRest (hidentifier c hc)
  obtain ⟨more, hmore⟩ := Text.exists_wordsFrom (List.reverse_ne_nil_iff.mpr hrun)
    (codeChars rest)
  rw [List.reverse_reverse] at hmore
  refine ⟨run ++ (codeChars rest).takeWhile fun c => !Text.isBlank c, more, ?_, ?_⟩
  · rw [codeChars_append fun c hc => (hplain c hc).2, Text.wordChars,
      Text.wordsFrom_append fun c hc => (hplain c hc).1, List.append_nil, hmore]
  · rw [List.takeWhile_append_of_pos hidentifier, takeWhile_codeChars hrest,
        List.append_nil]

/-- The identifier that a text begins with is the one that its first word begins with. -/
theorem leadingName?_codeWords {text : String}
    (h : text.toList.takeWhile isIdentifierRest ≠ []) :
    ∃ first more, codeWords text = first :: more ∧
      leadingName? first = some (String.ofList
          (text.toList.takeWhile isIdentifierRest)) := by
  have hidentifier : ∀ c ∈ text.toList.takeWhile isIdentifierRest, isIdentifierRest c =
      true := List.all_eq_true.mp List.all_takeWhile
  have hrest : ∀ c ∈ (text.toList.dropWhile isIdentifierRest).head?, isIdentifierRest c =
      false := by
    intro c hc
    have hhead := List.head?_dropWhile_not isIdentifierRest text.toList
    rw [Option.mem_def.mp hc] at hhead
    simpa using hhead
  obtain ⟨first, more, hwords, hfirst⟩ := exists_wordChars h hidentifier hrest
  rw [List.takeWhile_append_dropWhile] at hwords
  refine ⟨String.ofList first, more.map String.ofList,
    by rw [codeWords, hwords, List.map_cons], ?_⟩
  unfold leadingName?
  rw [String.toList_ofList, hfirst]
  split
  · contradiction
  · rfl

/-! ### Macros of the items -/

theorem macroName?_of_head? {line : List String} (h : line.head? ≠ some "#define") :
    macroName? line = none := by
  unfold macroName?
  split
  · rename_i first second more
    rw [if_neg]
    rintro rfl
    exact h rfl
  · rfl

/-- Among the lines of items only those of the constants define macros. -/
theorem filterMap_macroName? {items : List Resolved.Item}
    {constructs : List (List (List String))}
    (h : List.Forall₂ ConstructWords items constructs)
    (hlegible : ∀ item ∈ items, item.Legible) :
    (items.flatMap constantWords ++ constructs.flatten).filterMap macroName? =
      items.flatMap Resolved.Item.constantNames := by
  have hconstants : (items.flatMap constantWords).filterMap macroName? =
      items.flatMap Resolved.Item.constantNames := by
    rw [List.filterMap_flatMap]
    apply List.flatMap_congr
    intro item hitem
    rw [← filterMap_constantWords]
    apply List.filterMap_congr
    intro line hline
    obtain ⟨name, value, rfl⟩ := exists_of_mem_constantWords hline
    have hname : name ∈ item.constantNames := by
      rw [← filterMap_constantWords]
      exact List.mem_filterMap.mpr ⟨_, hline, by simp [declaredName?]⟩
    have hidentifier := ((hlegible item hitem).capital name hname).identifier
    simp [macroName?, declaredName?, leadingName?_identifier hidentifier]
  have hconstructs : constructs.flatten.filterMap macroName? = [] := by
    rw [List.filterMap_eq_nil_iff]
    intro line hline
    obtain ⟨words, hwords, hline⟩ := List.mem_flatten.mp hline
    obtain ⟨item, hitem, hconstruct⟩ := exists_of_forall₂_left h.flip hwords
    exact macroName?_of_head? (hconstruct.head?_ne (hlegible item hitem) line hline)
  rw [List.filterMap_append, hconstants, hconstructs, List.append_nil]

/-- The structs of the items have their tags and members. -/
theorem flatMap_structs {items : List Resolved.Item}
    {constructs : List (List (List String))}
    (h : List.Forall₂ ConstructWords items constructs)
    (hlegible : ∀ item ∈ items, item.Legible) :
    (structs (items.flatMap constantWords ++ constructs.flatten)).flatMap
        (fun found => found.1 :: memberNames found.2) =
      items.flatMap Resolved.Item.structNames := by
  have hread := congrArg (List.flatMap fun found => found.1 :: found.2)
    (structs_eq h hlegible)
  rw [List.flatMap_map, List.flatMap_map] at hread
  rw [hread]
  -- what is no struct has neither a tag nor members
  clear h hread hlegible
  induction items with
  | nil => rfl
  | cons item items ih =>
    cases item with
    | struct s =>
      rw [List.filterMap_cons_some (f := Resolved.Item.struct?) (b := s) rfl,
          List.flatMap_cons, ih, List.flatMap_cons]
      rfl
    | _ =>
      rw [List.filterMap_cons_none rfl, ih, List.flatMap_cons]
      rfl

/-! ### Macros of the opening and the end -/

theorem macroNames_append (text rest : String) :
    macroNames (text ++ "\n" ++ rest) = macroNames text ++ macroNames rest := by
  rw [macroNames, wordLines_append, List.filterMap_append]
  rfl

theorem IsLines.macroNames_append {text : String} (h : IsLines text) (rest : String) :
    macroNames (text ++ rest) = macroNames text ++ macroNames rest := by
  rw [macroNames, h.wordLines_append, List.filterMap_append]
  rfl

/-- A text in capitals defines no macro. -/
theorem filterMap_macroName?_of_capitals {parts : List (List Char)}
    (h : ∀ part ∈ parts, ∀ c ∈ part, c.isLower = false) :
    ((parts.map fun part => codeWords (String.ofList part)).filter
      fun words => !words.isEmpty).filterMap macroName? = [] := by
  rw [List.filterMap_eq_nil_iff]
  intro line hline
  obtain ⟨part, hpart, rfl⟩ := List.mem_map.mp (List.mem_of_mem_filter hline)
  apply macroName?_of_head?
  intro hhead
  have hmem := mem_of_mem_codeWords (List.mem_of_head? hhead) (c := 'd') (by decide)
  rw [String.toList_ofList] at hmem
  exact absurd (h part hpart 'd' hmem) (by decide)

/-- Behind its first word, a text in capitals adds to the macro of its first line at
    most. -/
theorem macroNames_of_capitals {word text : String} (hword : IsWord word)
    (hline : '\n' ∉ word.toList) (h : ∀ c ∈ text.toList, c.isLower = false) :
    macroNames (word ++ " " ++ text) = (macroName? (word ::
      codeWords (String.ofList (text.toList.takeWhile (· ≠ '\n'))))).toList := by
  obtain ⟨first, more, hsplit⟩ :=
    List.exists_cons_of_ne_nil (Text.splitAll_ne_nil '\n' text.toList)
  have hfirst : first = text.toList.takeWhile (· ≠ '\n') := by
    have hhead := Text.head?_splitAll '\n' text.toList
    rw [hsplit] at hhead
    exact Option.some.inj hhead
  have hmore : ∀ part ∈ more, ∀ c ∈ part, c.isLower = false := by
    intro part hpart c hc
    apply h
    exact Text.mem_of_mem_splitAll
      (by rw [hsplit]; exact List.mem_cons_of_mem first hpart) hc
  have hparts : Text.splitAll '\n' (word ++ " " ++ text).toList =
      (word ++ " " ++ String.ofList first).toList :: more := by
    have hbefore : '\n' ∉ word.toList ++ [' '] := by simp [hline]
    have hsplit' := Text.splitAll_append_of_notMem hbefore text.toList
    rw [hsplit, List.modifyHead_cons] at hsplit'
    simpa using hsplit'
  have hrest := filterMap_macroName?_of_capitals hmore
  rw [macroNames, wordLines, Text.splitText, hparts, List.map_cons, List.map_cons,
      List.map_map, String.ofList_toList, codeWords_append word _ hword, hfirst,
      List.filter_cons_of_pos rfl]
  rw [← List.singleton_append, List.filterMap_append]
  refine (congrArg₂ (· ++ ·) ?_ hrest).trans (List.append_nil _)
  generalize word :: codeWords (String.ofList (text.toList.takeWhile (· ≠ '\n'))) = line
  cases hfound : macroName? line <;> simp [hfound]

end Header

theorem isLower_guardName (package : String) :
    ∀ c ∈ (Header.guardName package).toList, c.isLower = false := by
  have hliteral : ("__".toList ++ "_YIS_H__".toList).all (fun c => !c.isLower) =
      true := by decide
  intro c hmem
  simp only [Header.guardName, constantName, Text.upper, String.toList_append,
      String.toList_ofList, List.mem_append] at hmem
  rcases hmem with (hmem | hmem) | hmem
  · simpa using List.all_eq_true.mp hliteral c (List.mem_append_left _ hmem)
  · obtain ⟨d, _, hupper⟩ := List.mem_flatMap.mp hmem
    exact Text.isLower_upperChar d c hupper
  · simpa using List.all_eq_true.mp hliteral c (List.mem_append_right _ hmem)

theorem isLower_guardMacro (package : String) :
    ∀ c ∈ (Header.guardMacro package).toList, c.isLower = false := by
  intro c hc
  rw [Header.guardMacro, String.toList_ofList] at hc
  exact isLower_guardName package c ((List.takeWhile_sublist _).mem hc)

namespace Header

theorem macroNames_ifndef (package : String) :
    macroNames ("#ifndef " ++ guardName package) = [] := by
  have hwords : "#ifndef " ++ guardName package = "#ifndef" ++ " " ++ guardName package :=
    rfl
  rw [hwords, macroNames_of_capitals (by decide) (by decide) (isLower_guardName package),
    macroName?_of_head? (by simp)]
  rfl

/-- The macro of the include guard ends where its first line does at the latest. -/
theorem macroNames_define (package : String) :
    macroNames ("#define " ++ guardName package) = [guardMacro package] := by
  have hwords : "#define " ++ guardName package = "#define" ++ " " ++ guardName package :=
    rfl
  have hrun : ((guardName package).toList.takeWhile (· ≠ '\n')).takeWhile isIdentifierRest =
      (guardName package).toList.takeWhile isIdentifierRest := by
    rw [List.takeWhile_takeWhile]
    congr 1
    funext c
    by_cases hc : c = '\n'
    · rw [hc]
      decide
    · simp [hc]
  have hguard : (guardName package).toList.takeWhile isIdentifierRest ≠ [] := by
    simp [guardName, isIdentifierRest]
  obtain ⟨first, more, hfirst, hname⟩ := @leadingName?_codeWords
    (String.ofList ((guardName package).toList.takeWhile (· ≠ '\n')))
    (by rw [String.toList_ofList, hrun]; exact hguard)
  rw [String.toList_ofList, hrun] at hname
  rw [hwords, macroNames_of_capitals (by decide) (by decide) (isLower_guardName package),
      hfirst, macroName?, if_pos rfl, hname]
  rfl

theorem macroNames_guardText (package : String) :
    macroNames (guardText package) = [guardMacro package] := by
  have hnote : IsLines "//\n// Do Not Edit\n//\n" := by decide
  have hnone : macroNames "//\n// Do Not Edit\n//\n" = [] := by decide
  have hinclude : macroNames "\n#include <stdint.h>\n\n" = [] := by decide
  have hdefine : macroNames ("#define " ++ guardName package ++ "\n" ++
      "\n#include <stdint.h>\n\n") = [guardMacro package] :=
    (macroNames_append _ _).trans (congrArg₂ (· ++ ·) (macroNames_define package) hinclude)
  have hifndef := (macroNames_append _ _).trans
    (congrArg₂ (· ++ ·) (macroNames_ifndef package) hdefine)
  exact (hnote.macroNames_append _).trans (congrArg₂ (· ++ ·) hnone hifndef)

/-- The end of a header defines no macro. -/
theorem macroNames_endText (package : String) : macroNames (endText package) = [] := by
  have hblank : IsLines "\n" := by decide
  have hnone : macroNames "\n" = [] := by decide
  have hempty : macroNames "" = [] := by decide
  have hmark : ∀ c ∈ ("// " ++ guardName package).toList, c.isLower = false := by
    intro c hc
    rw [String.toList_append, List.mem_append] at hc
    rcases hc with hc | hc
    · have hliteral : "// ".toList.all (fun c => !c.isLower) = true := by decide
      simpa using List.all_eq_true.mp hliteral c hc
    · exact isLower_guardName package c hc
  have hwords : "#endif // " ++ guardName package = "#endif" ++ " " ++
      ("// " ++ guardName package) := by
    apply String.toList_inj.mp
    simp
  have hend : macroNames ("#endif // " ++ guardName package) = [] := by
    rw [hwords, macroNames_of_capitals (by decide) (by decide) hmark,
        macroName?_of_head? (by simp)]
    rfl
  have hline : macroNames ("#endif // " ++ guardName package ++ "\n") = [] := by
    rw [← String.append_empty (s := "#endif // " ++ guardName package ++ "\n"),
        macroNames_append, hend, hempty]
    rfl
  exact (hblank.macroNames_append _).trans (congrArg₂ (· ++ ·) hnone hline)

/-- The source of a package adds no macro, as long as it is a single line. -/
theorem macroNames_sourceText_append {source : String} (h : '\n' ∉ source.toList)
    (rest : String) : macroNames (sourceText source ++ rest) = macroNames rest := by
  have hline :
      '\n' ∉ ("//" ++ (" Autogenerated from " ++ source ++ " by yisc")).toList := by
    simp [h]
  have hwords : codeWords ("//" ++ (" Autogenerated from " ++ source ++ " by yisc")) =
      [] := by
    simp [codeWords, codeChars, Text.wordChars, Text.wordsFrom]
  rw [sourceText, macroNames_append, macroNames, wordLines_of_notMem hline, hwords]
  rfl

theorem macroNames_enclose {p : Package} (h : '\n' ∉ p.source.toList) (body : String) :
    macroNames (enclose p body) =
      macroNames (guardText p.name ++ body ++ endText p.name) := by
  rw [enclose, String.append_assoc, String.append_assoc, macroNames_sourceText_append h,
    String.append_assoc]

end Header

/-! ### Names without double underscores -/

theorem hasDoubleUnderscore_guardMacro (package : String) :
    hasDoubleUnderscore (Header.guardMacro package).toList = true := by
  simp [Header.guardMacro, Header.guardName, isIdentifierRest, hasDoubleUnderscore]

theorem Decl.WellFormed.noDoubleUnderscore {d : Decl} (h : d.WellFormed) :
    ∀ member ∈ d.memberNames, hasDoubleUnderscore member.toList = false := by
  unfold Decl.memberNames
  cases hmembers : d.members? with
  | none => simp
  | some members =>
    obtain ⟨hrules, _⟩ := memberRules_of_memberFault? hmembers h.members
    exact fun member hmember => hasDoubleUnderscore_of_memberRule? (hrules member hmember)

theorem noDoubleUnderscore_of_resolve {name source : String} {schema : Schema}
    {tracing : Tracing} {p : Package}
    (h : (Package.resolve name source schema tracing).outcome = .ok p) :
    ∀ item ∈ p.items, ∀ member ∈ item.memberNames,
      hasDoubleUnderscore member.toList = false := by
  obtain ⟨t, hdecls, order, itemAt, hassembled⟩ := assembled_of_resolve h
  intro item hitem
  obtain ⟨id, hresolves⟩ := hassembled.exists_id hitem
  rw [(item_isOf hresolves).memberNames]
  apply Decl.WellFormed.noDoubleUnderscore
  apply (registrable_of_resolve h).wellFormed
  rw [← hdecls]
  exact List.get_mem _ _

namespace Header

/-- A header defines the guard and the constants of all items, and declares the tags and
    members of all structs. -/
theorem exists_reads {p : Package} {text : String} (h : text? p = some text)
    (hlegible : ∀ item ∈ p.items, item.Legible) :
    ∃ body, text = enclose p body ∧
      macroNames (guardText p.name ++ body ++ endText p.name) =
        guardMacro p.name :: p.items.flatMap Resolved.Item.constantNames ∧
      structNames body = p.items.flatMap Resolved.Item.structNames := by
  obtain ⟨body, constructs, hbody, hlines, hconstructs, hwords⟩ :=
    exists_wordLines h hlegible
  have hnote : IsLines "//\n// Do Not Edit\n//\n" := by decide
  have hinclude : IsLines "\n#include <stdint.h>\n\n" := by decide
  have hguard : IsLines (guardText p.name) :=
    hnote.append ((isLines_newLine _).append ((isLines_newLine _).append hinclude))
  refine ⟨body, hbody, ?_, ?_⟩
  · rw [String.append_assoc, hguard.macroNames_append, hlines.macroNames_append,
      macroNames_guardText, macroNames_endText, List.append_nil, macroNames, hwords,
      filterMap_macroName? hconstructs hlegible]
    rfl
  · rw [structNames, hwords, flatMap_structs hconstructs hlegible]

end Header

/-! ### Macros and the names in structs -/

section Package

variable {p : Package}

/-- A member is never the include guard, so only tags have to be compared with it. -/
theorem structNames_notMem_iff (hmembers : ∀ item ∈ p.items, ∀ member ∈ item.memberNames,
      hasDoubleUnderscore member.toList = false) :
    (∀ declared ∈ p.items.flatMap Resolved.Item.structNames, declared ∉
        Header.guardMacro p.name :: p.items.flatMap Resolved.Item.constantNames) ↔
      ∀ s, .struct s ∈ p.items →
        (∀ f ∈ s.fields, f.name ∉ p.items.flatMap Resolved.Item.constantNames) ∧
          "_" ++ s.name ∉
            Header.guardMacro p.name :: p.items.flatMap Resolved.Item.constantNames := by
  constructor
  · intro hfree s hs
    have hof : ∀ declared ∈ (Resolved.Item.struct s).structNames, declared ∉
        Header.guardMacro p.name :: p.items.flatMap Resolved.Item.constantNames :=
      fun declared hdeclared => hfree declared (List.mem_flatMap.mpr ⟨_, hs, hdeclared⟩)
    refine ⟨?_, hof _ List.mem_cons_self⟩
    intro f hf hconstant
    exact hof f.name (List.mem_cons_of_mem _ (List.mem_map_of_mem hf))
      (List.mem_cons_of_mem _ hconstant)
  · intro hfree declared hdeclared hmacro
    obtain ⟨item, hitem, hdeclared⟩ := List.mem_flatMap.mp hdeclared
    cases item with
    | struct s =>
      obtain ⟨hfields, htag⟩ := hfree s hitem
      rcases List.mem_cons.mp hdeclared with rfl | hdeclared
      · exact htag hmacro
      · obtain ⟨f, hf, rfl⟩ := List.mem_map.mp hdeclared
        rcases List.mem_cons.mp hmacro with hguard | hconstant
        · -- the guard has two underscores side by side, and no member may
          have hdouble := hmembers _ hitem f.name (List.mem_map_of_mem hf)
          rw [hguard, hasDoubleUnderscore_guardMacro] at hdouble
          cases hdouble
        · exact hfields f hf hconstant
    | _ => cases hdeclared

theorem isLower_of_mem_macros (hlegible : ∀ item ∈ p.items, item.Legible) {found : String}
    (h : found ∈
      Header.guardMacro p.name :: p.items.flatMap Resolved.Item.constantNames) :
    found.toList.any Char.isLower = false := by
  apply List.any_eq_false.mpr
  intro c hc
  rw [Bool.not_eq_true]
  rcases List.mem_cons.mp h with rfl | h
  · exact isLower_guardMacro p.name c hc
  · obtain ⟨item, hitem, hconstant⟩ := List.mem_flatMap.mp h
    exact ((hlegible item hitem).capital found hconstant).noLower c hc

end Package

/-- **When macros leave the structs of a header alone.**

    The macros are read off all lines of the header behind the one that names its source,
    and that one adds none if it is a single line.  No tag and no member of the structs
    among the items is such a macro exactly if no field has the name of a constant and no
    tag is a constant or the include guard.  Structs are safe whose names and fields all
    have a small letter. -/
theorem structs_free_of_macros (name source : String) (schema : Schema)
    (tracing : Tracing) (p : Package) (text : String)
    (h : (Package.resolve name source schema tracing).outcome = .ok p)
    (htext : Header.text? p = some text) :
    ∃ body macros, text = Header.enclose p body ∧
      macros =
        Header.macroNames (Header.guardText p.name ++ body ++ Header.endText p.name) ∧
      ('\n' ∉ source.toList → Header.macroNames text = macros) ∧
      ((∀ declared ∈ Header.structNames body, declared ∉ macros) ↔
        ∀ s, .struct s ∈ p.items →
          (∀ f ∈ s.fields, f.name ∉ p.items.flatMap Resolved.Item.constantNames) ∧
            "_" ++ s.name ∉
              Header.guardMacro p.name :: p.items.flatMap Resolved.Item.constantNames) ∧
      ((∀ item ∈ p.items, ∀ declared ∈ item.structNames,
          declared.toList.any Char.isLower = true) →
        ∀ declared ∈ Header.structNames body, declared ∉ macros) := by
  have hlegible := legible_of_resolve h
  obtain ⟨_, _, _, _, _, _, hp⟩ := exists_order_of_resolve h
  have hsource : p.source = source := by rw [hp]
  obtain ⟨body, hbody, hmacros, hstructs⟩ := Header.exists_reads htext hlegible
  refine ⟨body, _, hbody, rfl, ?_, ?_, ?_⟩
  · intro hline
    rw [hbody, Header.macroNames_enclose (hsource ▸ hline)]
  · rw [hmacros, hstructs]
    exact structNames_notMem_iff (noDoubleUnderscore_of_resolve h)
  · rw [hmacros, hstructs]
    intro hsmall declared hdeclared hmacro
    obtain ⟨item, hitem, hdeclared⟩ := List.mem_flatMap.mp hdeclared
    have hlower := hsmall item hitem declared hdeclared
    rw [isLower_of_mem_macros hlegible hmacro] at hlower
    cases hlower

/-- The struct of `laneTable` has the tag `_lane_t` and the members `tags` and `data`, and
    no macro of its header has these names. -/
theorem laneTable_structs_free :
    ∃ p text body,
      (Package.resolve "lanes" "lanes.yaml" { decls := laneTable.decls } {}).outcome =
        .ok p ∧
      Header.text? p = some text ∧ text = Header.enclose p body ∧
      ∀ declared ∈ Header.structNames body, declared ∉ Header.macroNames text := by
  have hp : (Package.resolve "lanes" "lanes.yaml" { decls := laneTable.decls } {}).outcome =
      .ok _ := rfl
  obtain ⟨body, macros, hbody, _, hmacros, _, hfree⟩ :=
    structs_free_of_macros "lanes" "lanes.yaml" { decls := laneTable.decls } {} _ _ hp rfl
  refine ⟨_, _, body, hp, rfl, hbody, ?_⟩
  rw [hmacros (by decide)]
  exact hfree (by decide)

/-- A parameter and a field of one name. -/
def depthTwice : Schema where
  decls :=
    [.parameter { name := "DEPTH", value := .literal 4,
                  docs := { summary := "Entries of the queue" } },
     .struct { name := "entry_t", docs := { summary := "An entry" },
               fields := [{ name := "DEPTH", type := .logic (.literal 8),
                            docs := { summary := "Its place" } }] }]

/-- The two are accepted, and the macro of the parameter replaces the name of the field. -/
theorem depthTwice_clashes :
    ∃ p text body, (Package.resolve "pkg" "pkg.yis" depthTwice {}).outcome = .ok p ∧
      Header.text? p = some text ∧ text = Header.enclose p body ∧
      "DEPTH" ∈ Header.structNames body ∧ "DEPTH" ∈ Header.macroNames text := by
  have hp : (Package.resolve "pkg" "pkg.yis" depthTwice {}).outcome = .ok _ := rfl
  obtain ⟨body, hbody, hmacros, hstructs⟩ := Header.exists_reads rfl (legible_of_resolve hp)
  refine ⟨_, _, body, hp, rfl, hbody, ?_, ?_⟩
  · rw [hstructs]
    decide
  · rw [hbody, Header.macroNames_enclose (by decide), hmacros]
    decide

end WireSchema
