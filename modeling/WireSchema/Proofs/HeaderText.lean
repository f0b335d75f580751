import WireSchema.Emit.Header
import WireSchema.Proofs.Identifiers
import WireSchema.Proofs.Splitting
import WireSchema.Proofs.WhiteSpace

/-!
# Reading a header

What a header declares is read off its text.  The text is split at its line feeds, the
code of a line ends at the comment mark, and white space separates its words
(`wordLines`).  The words tell what a line declares: a constant, an enumerator, a type,
the tag of a struct or a member.

Every line that is written spells its words (`Spells`), and so it is read back, whatever
the comments say.
-/

namespace WireSchema

/-! ### The reader -/

namespace Header

def codeChars : List Char → List Char
  | '/' :: '/' :: _ => []
  | c :: rest => c :: codeChars rest
  | [] => []

def codeWords (text : String) : List String :=
  (Text.wordChars (codeChars text.toList)).map String.ofList

/-- The words of all lines of a text; lines without code are left out. -/
def wordLines (text : String) : List (List String) :=
  ((Text.splitText '\n' text).map codeWords).filter fun words => !words.isEmpty

def leadingName? (word : String) : Option String :=
  match word.toList.takeWhile isIdentifierRest with
  | [] => none
  | name => some (String.ofList name)

/-- The name of a constant, an enumerator or a type that a line declares. -/
def declaredName? : List String → Option String
  | [first, second] => if first = "\x7d" then leadingName? second else none
  | [first, second, third] =>
    if first = "#define" then some second
    else if first = "typedef" then leadingName? third
    else if second = "=" then some first
    else none
  | _ => none

/-- The type that a line declares: it closes an enum or a struct, or it is a typedef. -/
def declaredType? : List String → Option String
  | [first, second] => if first = "\x7d" then leadingName? second else none
  | [first, _, third] => if first = "typedef" then leadingName? third else none
  | _ => none

/-- The member that a line of a struct declares: its type and its name. -/
def member? : List String → Option (String × String)
  | [type, second] =>
    if isIdentifier type then (leadingName? second).map (type, ·) else none
  | _ => none

def tag? : List String → Option String
  | [first, second, tag, brace] =>
    if first = "typedef" ∧ second = "struct" ∧ brace = "\x7b" then some tag else none
  | _ => none

/-- The structs in lines: their tags, and the lines up to the closing braces. -/
def structs : List (List String) → List (String × List (List String))
  | [] => []
  | line :: rest =>
    match tag? line with
    | some tag =>
      (tag, rest.takeWhile fun inner => inner.head? != some "\x7d") :: structs rest
    | none => structs rest

end Header

/-! ### Words -/

namespace Text

/-- Words are made of the characters of the text. -/
theorem mem_of_mem_wordsFrom {c : Char} {part word cs : List Char}
    (hpart : part ∈ wordsFrom word cs) (hc : c ∈ part) : c ∈ word ∨ c ∈ cs := by
  induction cs generalizing word with
  | nil =>
    by_cases hword : word = []
    · simp [wordsFrom, hword] at hpart
    · rw [wordsFrom, if_neg (by simpa using hword), List.mem_singleton] at hpart
      rw [hpart, List.mem_reverse] at hc
      exact .inl hc
  | cons d cs ih =>
    have hrest : part ∈ wordsFrom [] cs → c ∈ d :: cs := by
      intro hpart
      rcases ih hpart with hnil | hcs
      · cases hnil
      · exact List.mem_cons_of_mem d hcs
    by_cases hd : isBlank d = true
    · rw [wordsFrom, if_pos hd] at hpart
      by_cases hword : word = []
      · rw [if_pos (by simpa using hword)] at hpart
        exact .inr (hrest hpart)
      · rw [if_neg (by simpa using hword)] at hpart
        rcases List.mem_cons.mp hpart with rfl | hpart
        · exact .inl (List.mem_reverse.mp hc)
        · exact .inr (hrest hpart)
    · rw [wordsFrom, if_neg hd] at hpart
      rcases ih hpart with hword | hcs
      · rcases List.mem_cons.mp hword with rfl | hword
        · exact .inr List.mem_cons_self
        · exact .inl hword
      · exact .inr (List.mem_cons_of_mem d hcs)

theorem wordsFrom_append {word cs rest : List Char} (h : ∀ c ∈ cs, isBlank c = false) :
    wordsFrom word (cs ++ rest) = wordsFrom (cs.reverse ++ word) rest := by
  induction cs generalizing word with
  | nil => rfl
  | cons c cs ih =>
    have hc := h c List.mem_cons_self
    simp only [List.cons_append, wordsFrom, hc, Bool.false_eq_true, if_false,
        List.reverse_cons, List.append_assoc, List.nil_append]
    exact ih fun d hd => h d (List.mem_cons_of_mem c hd)

theorem wordChars_word {cs : List Char} (hcs : cs ≠ [])
    (h : ∀ c ∈ cs, isBlank c = false) : wordChars cs = [cs] := by
  have happend := @wordsFrom_append [] cs [] h
  simp only [List.append_nil] at happend
  simp [wordChars, happend, wordsFrom, hcs]

theorem wordChars_append {cs rest : List Char} {c : Char} (hcs : cs ≠ [])
    (h : ∀ c ∈ cs, isBlank c = false) (hc : isBlank c = true) :
    wordChars (cs ++ c :: rest) = cs :: wordChars rest := by
  rw [wordChars_append_blank hc, wordChars_word hcs h]
  rfl

end Text

namespace Header

/-- A character of code that neither separates words nor belongs to the comment mark. -/
def isPlain (c : Char) : Bool := !Text.isBlank c && c != '/'

def IsWord (word : String) : Prop := word ≠ "" ∧ word.toList.all isPlain = true

instance (word : String) : Decidable (IsWord word) := inferInstanceAs (Decidable (_ ∧ _))

theorem IsWord.ne_nil {word : String} (h : IsWord word) : word.toList ≠ [] := by
  simpa using h.1

theorem IsWord.plain {word : String} (h : IsWord word) :
    ∀ c ∈ word.toList, Text.isBlank c = false ∧ c ≠ '/' := by
  intro c hc
  simpa [isPlain] using List.all_eq_true.mp h.2 c hc

/-- Characters are words with blanks between them. -/
inductive Spells : List Char → List String → Prop where
  | nil : Spells [] []
  | blank {cs : List Char} {words : List String} : Spells cs words →
      Spells (' ' :: cs) words
  | last {word : String} : IsWord word → Spells word.toList [word]
  | cons {word : String} {cs : List Char} {words : List String} :
      IsWord word → Spells cs words → Spells (word.toList ++ ' ' :: cs) (word :: words)

theorem Spells.blanks {blanks cs : List Char} {words : List String}
    (hblanks : blanks.all (· == ' ') = true) (h : Spells cs words) :
    Spells (blanks ++ cs) words := by
  induction blanks with
  | nil => exact h
  | cons c blanks ih =>
    simp only [List.all_cons, Bool.and_eq_true, beq_iff_eq] at hblanks
    rw [hblanks.1]
    exact .blank (ih hblanks.2)

theorem spells_blanks {blanks : List Char} (hblanks : blanks.all (· == ' ') = true) :
    Spells blanks [] := by
  rw [← List.append_nil blanks]
  exact Spells.nil.blanks hblanks

/-- What is spelled is what is read. -/
theorem Spells.wordChars {cs : List Char} {words : List String} (h : Spells cs words) :
    Text.wordChars cs = words.map String.toList := by
  have hblank : Text.isBlank ' ' = true := by decide
  induction h with
  | nil => rfl
  | blank _ ih => rw [Text.wordChars_blank hblank, ih]
  | last hword => exact Text.wordChars_word hword.ne_nil fun c hc => (hword.plain c hc).1
  | cons hword _ ih =>
    rw [Text.wordChars_append hword.ne_nil (fun c hc => (hword.plain c hc).1) hblank, ih]
    rfl

theorem Spells.no_mark {cs : List Char} {words : List String} (h : Spells cs words) :
    ∀ c ∈ cs, c ≠ '/' := by
  induction h with
  | nil => simp
  | blank _ ih => simpa using ih
  | last hword => exact fun c hc => (hword.plain c hc).2
  | cons hword _ ih =>
    intro c hc
    simp only [List.mem_append, List.mem_cons] at hc
    rcases hc with hc | rfl | hc
    · exact (hword.plain c hc).2
    · decide
    · exact ih c hc

theorem codeChars_append {cs rest : List Char} (h : ∀ c ∈ cs, c ≠ '/') :
    codeChars (cs ++ rest) = cs ++ codeChars rest := by
  induction cs with
  | nil => rfl
  | cons c cs ih =>
    have hc := h c List.mem_cons_self
    have hcs := ih fun d hd => h d (List.mem_cons_of_mem c hd)
    rw [List.cons_append, codeChars, hcs]
    · rfl
    · intro _ hmark
      exact (hc hmark).elim

theorem codeChars_comment {cs : List Char} (h : ∀ c ∈ cs, c ≠ '/') (rest : List Char) :
    codeChars (cs ++ '/' :: '/' :: rest) = cs := by
  rw [codeChars_append h, codeChars, List.append_nil]

/-- The code of a line is read without its comment, as long as no comment mark stands in
    it. -/
theorem codeChars_text {line : HeaderLine} (h : ∀ c ∈ line.code.toList, c ≠ '/') :
    codeChars line.text.toList = line.code.toList := by
  unfold HeaderLine.text
  cases line.comment with
  | none =>
    have hall := @codeChars_append line.code.toList [] h
    simpa [codeChars] using hall
  | some comment =>
    rw [String.toList_append, String.toList_append, List.append_assoc]
    exact codeChars_comment h comment.toList

/-- The words of a line are those that its code spells: its comment is not read. -/
theorem Spells.codeWords {line : HeaderLine} {words : List String}
    (h : Spells line.code.toList words) : codeWords line.text = words := by
  rw [Header.codeWords, codeChars_text h.no_mark, h.wordChars, List.map_map]
  simp

/-! ### Kinds of words -/

theorem isPlain_of_isIdentifierRest {c : Char} (h : isIdentifierRest c = true) :
    isPlain c = true :=
  of_isIdentifierRest (motive := fun c => isPlain c = true) (by decide) h

theorem isWord_of_isIdentifier {name : String} (h : isIdentifier name = true) :
    IsWord name := by
  constructor
  · rintro rfl
    cases h
  · rw [List.all_eq_true]
    intro c hc
    exact isPlain_of_isIdentifierRest (isIdentifierRest_of_isIdentifier h c hc)

theorem isIdentifierRest_of_mem_toString {n : Nat} {c : Char}
    (h : c ∈ (toString n).toList) : isIdentifierRest c = true := by
  have hdigits : (toString n).toList = Nat.toDigits 10 n := by simp [Nat.toString_eq_repr]
  rw [hdigits] at h
  have hdigit := Nat.isDigit_of_mem_toDigits (by omega) (by omega) h
  simp [isIdentifierRest, Char.isAlphanum, hdigit]

theorem isWord_toString (n : Nat) : IsWord (toString n) := by
  constructor
  · intro hempty
    have hdigits : (toString n).toList = Nat.toDigits 10 n := by simp [Nat.toString_eq_repr]
    rw [hempty] at hdigits
    exact Nat.toDigits_ne_nil hdigits.symm
  · rw [List.all_eq_true]
    intro c hc
    exact isPlain_of_isIdentifierRest (isIdentifierRest_of_mem_toString hc)

theorem IsWord.append {word ending : String} (h : IsWord word)
    (hending : ending.toList.all isPlain = true) : IsWord (word ++ ending) := by
  constructor
  · simp [h.1]
  · rw [String.toList_append, List.all_append, h.2, hending]
    rfl

/-- What follows a name in the word that ends a declaration: it does not go on like an
    identifier. -/
structure IsTail (tail : String) : Prop where
  head : ∃ c rest, tail.toList = c :: rest ∧ isIdentifierRest c = false
  plain : tail.toList.all isPlain = true

theorem isTail_semicolon : IsTail ";" := ⟨⟨';', [], rfl, rfl⟩, by decide⟩

theorem isTail_suffix (storage : Storage) : IsTail (storage.suffix ++ ";") := by
  cases storage with
  | bytes count =>
    have hopen : "[".toList.all isPlain = true := by decide
    have hclose : "]".toList.all isPlain = true := by decide
    have hend : ";".toList.all isPlain = true := by decide
    constructor
    · exact ⟨'[', (toString count).toList ++ "]".toList ++ ";".toList,
        by simp [Storage.suffix], rfl⟩
    · simp only [Storage.suffix, String.toList_append, List.all_append, hopen,
        (isWord_toString count).2, hclose, hend, Bool.and_self]
  | _ => exact isTail_semicolon

theorem isWord_name_tail {name tail : String} (hname : isIdentifier name = true)
    (htail : IsTail tail) :
    IsWord (name ++ tail) := (isWord_of_isIdentifier hname).append htail.plain

/-- A name is read up to what follows it in its word. -/
theorem leadingName?_append {name tail : String} (hname : isIdentifier name = true)
    (htail : IsTail tail) : leadingName? (name ++ tail) = some name := by
  obtain ⟨c, rest, hcs, hc⟩ := htail.head
  have hrun : (name ++ tail).toList.takeWhile isIdentifierRest = name.toList := by
    rw [String.toList_append, List.takeWhile_append_of_pos
        (isIdentifierRest_of_isIdentifier hname), hcs]
    simp [hc]
  unfold leadingName?
  rw [hrun]
  obtain ⟨first, others, hfirst, _⟩ := isIdentifier_iff.mp hname
  rw [hfirst]
  simp only [← hfirst, String.ofList_toList]

theorem leadingName?_identifier {name : String} (h : isIdentifier name = true) :
    leadingName? name = some name := by
  have hall : name.toList.takeWhile isIdentifierRest = name.toList := by
    have happend := @List.takeWhile_append_of_pos _ _ _ []
      (isIdentifierRest_of_isIdentifier h)
    simpa using happend
  obtain ⟨first, rest, hname, _⟩ := isIdentifier_iff.mp h
  unfold leadingName?
  rw [hall, hname]
  simp [← hname]

theorem isIdentifier_typeName (storage : Storage) :
    isIdentifier storage.typeName = true := by
  have hbytes : isIdentifier "uint8_t" = true := by decide
  cases storage with
  | bytes count => exact hbytes
  | _ => rfl

/-! ### Lines -/

theorem spells_docLine {indent line : String} (h : indent.toList.all (· == ' ') = true) :
    Spells (docLine indent line).code.toList [] := spells_blanks h

/-- The definition of a constant is three words. -/
theorem spells_define {name note : String} {value : Nat}
    (hname : isIdentifier name = true) :
    Spells (define name value note).code.toList ["#define", name, toString value] := by
  have hcode : (define name value note).code.toList =
      "#define".toList ++ ' ' :: (name.toList ++ ' ' ::
        ((toString value).toList ++ ' ' :: "          ".toList)) := by
    simp [define]
  rw [hcode]
  have hvalue : Spells ((toString value).toList ++ ' ' :: "          ".toList)
      [toString value] := .cons (isWord_toString value) (spells_blanks (by decide))
  exact .cons (by decide) (.cons (isWord_of_isIdentifier hname) hvalue)

/-- An enumerator is its name, an equal sign and its value with a comma. -/
theorem spells_enumerator {name : String} (value : Nat)
    (hname : isIdentifier name = true) :
    Spells ("    " ++ name ++ " = " ++ toString value ++ ",   ").toList
      [name, "=", toString value ++ ","] := by
  have hcode : ("    " ++ name ++ " = " ++ toString value ++ ",   ").toList =
      "    ".toList ++ (name.toList ++ ' ' :: ("=".toList ++ ' ' ::
        ((toString value ++ ",").toList ++ ' ' :: "  ".toList))) := by
    simp
  rw [hcode]
  have hvalue : Spells ((toString value ++ ",").toList ++ ' ' :: "  ".toList)
      [toString value ++ ","] :=
    .cons ((isWord_toString value).append (by decide)) (spells_blanks (by decide))
  exact .blanks (by decide)
    (.cons (isWord_of_isIdentifier hname) (.cons (by decide) hvalue))

theorem spells_closing {name : String} (hname : isIdentifier name = true) :
    Spells ("\x7d " ++ name ++ ";").toList ["\x7d", name ++ ";"] := by
  have hcode : ("\x7d " ++ name ++ ";").toList =
      "\x7d".toList ++ ' ' :: (name ++ ";").toList := by simp
  rw [hcode]
  exact .cons (by decide) (.last (isWord_name_tail hname isTail_semicolon))

theorem spells_declaration {type name tail : String} (htype : isIdentifier type = true)
    (hname : isIdentifier name = true) (htail : IsTail tail) :
    Spells (type.toList ++ ' ' :: ((name ++ tail).toList ++ ' ' :: "   ".toList))
      [type, name ++ tail] := by
  have hend : Spells ((name ++ tail).toList ++ ' ' :: "   ".toList) [name ++ tail] :=
    .cons (isWord_name_tail hname htail) (spells_blanks (by decide))
  exact .cons (isWord_of_isIdentifier htype) hend

/-- A typedef of bits is three words, with the length of an array attached to the last. -/
theorem spells_typedef {name : String} (hname : isIdentifier name = true)
    (storage : Storage) :
    Spells ("typedef " ++ storage.declare name ++ ";    ").toList
      ["typedef", storage.typeName, name ++ (storage.suffix ++ ";")] := by
  have hcode : ("typedef " ++ storage.declare name ++ ";    ").toList =
      "typedef".toList ++ ' ' :: (storage.typeName.toList ++
        ' ' :: ((name ++ (storage.suffix ++ ";")).toList ++ ' ' :: "   ".toList)) := by
    simp [Storage.declare]
  rw [hcode]
  exact .cons (by decide)
    (spells_declaration (isIdentifier_typeName storage) hname (isTail_suffix storage))

theorem spells_bits {name : String} (hname : isIdentifier name = true) (storage : Storage) :
    Spells ("    " ++ storage.declare name ++ ";    ").toList
      [storage.typeName, name ++ (storage.suffix ++ ";")] := by
  have hcode : ("    " ++ storage.declare name ++ ";    ").toList =
      "    ".toList ++ (storage.typeName.toList ++
        ' ' :: ((name ++ (storage.suffix ++ ";")).toList ++ ' ' :: "   ".toList)) := by
    simp [Storage.declare]
  rw [hcode]
  exact .blanks (by decide)
    (spells_declaration (isIdentifier_typeName storage) hname (isTail_suffix storage))

/-- A field of a named type is two words. -/
theorem spells_member {type name : String} (htype : isIdentifier type = true)
    (hname : isIdentifier name = true) :
    Spells ("    " ++ (type ++ " " ++ name) ++ ";    ").toList [type, name ++ ";"] := by
  have hcode : ("    " ++ (type ++ " " ++ name) ++ ";    ").toList = "    ".toList ++
      (type.toList ++ ' ' :: ((name ++ ";").toList ++ ' ' :: "   ".toList)) := by
    simp
  rw [hcode]
  exact .blanks (by decide) (spells_declaration htype hname isTail_semicolon)

theorem spells_structOpening {name : String} (hname : isIdentifier name = true) :
    Spells ("typedef struct _" ++ name ++ " \x7b").toList
      ["typedef", "struct", "_" ++ name, "\x7b"] := by
  have hcode : ("typedef struct _" ++ name ++ " \x7b").toList = "typedef".toList ++ ' ' ::
      ("struct".toList ++ ' ' :: (("_" ++ name).toList ++ ' ' :: "\x7b".toList)) := by
    simp
  rw [hcode]
  have htag : isIdentifier ("_" ++ name) = true :=
    isIdentifier_append (by decide) (isIdentifierRest_of_isIdentifier hname)
  exact .cons (by decide) (.cons (by decide)
      (.cons (isWord_of_isIdentifier htag) (.last (by decide))))

theorem spells_enumOpening :
    Spells "typedef enum \x7b".toList ["typedef", "enum", "\x7b"] := by
  have hcode : "typedef enum \x7b".toList =
      "typedef".toList ++ ' ' :: ("enum".toList ++ ' ' :: "\x7b".toList) := by
    simp
  rw [hcode]
  exact .cons (by decide) (.cons (by decide) (.last (by decide)))

/-! ### Words of a text -/

theorem mem_of_mem_codeChars {c : Char} {cs : List Char} (h : c ∈ codeChars cs) :
    c ∈ cs := by
  induction cs using codeChars.induct with
  | case1 rest => cases h
  | case2 d rest hd ih =>
    rw [codeChars] at h
    · rcases List.mem_cons.mp h with rfl | h
      · exact List.mem_cons_self
      · exact List.mem_cons_of_mem d (ih h)
    · exact hd
  | case3 => cases h

theorem mem_of_mem_codeWords {c : Char} {text word : String} (hword : word ∈ codeWords text)
    (hc : c ∈ word.toList) : c ∈ text.toList := by
  obtain ⟨part, hpart, rfl⟩ := List.mem_map.mp hword
  rw [String.toList_ofList] at hc
  rcases Text.mem_of_mem_wordsFrom hpart hc with hnil | hcode
  · cases hnil
  · exact mem_of_mem_codeChars hcode

theorem codeWords_append (word rest : String) (hword : IsWord word) :
    codeWords (word ++ " " ++ rest) = word :: codeWords rest := by
  have hblank : Text.isBlank ' ' = true := by decide
  have hmark : ∀ c ∈ word.toList ++ [' '], c ≠ '/' := by
    intro c hc
    rcases List.mem_append.mp hc with hc | hc
    · exact (hword.plain c hc).2
    · rw [List.mem_singleton.mp hc]
      decide
  have hchars : codeChars (word ++ " " ++ rest).toList =
      word.toList ++ ' ' :: codeChars rest.toList := by
    have hall := @codeChars_append (word.toList ++ [' ']) rest.toList hmark
    simpa using hall
  unfold codeWords
  rw [hchars, Text.wordChars_append hword.ne_nil (fun c hc => (hword.plain c hc).1) hblank]
  simp

/-- A line feed ends a line for good: what follows it is read as if it stood alone. -/
theorem wordLines_append (text rest : String) :
    wordLines (text ++ "\n" ++ rest) = wordLines text ++ wordLines rest := by
  have hsplit : Text.splitText '\n' (text ++ "\n" ++ rest) =
      Text.splitText '\n' text ++ Text.splitText '\n' rest := by
    have hchars : (text ++ "\n" ++ rest).toList = text.toList ++ '\n' :: rest.toList := by
      simp
    rw [Text.splitText, hchars, Text.splitAll_append_mark, List.map_append]
    rfl
  rw [wordLines, hsplit, List.map_append, List.filter_append]
  rfl

/-- A text of whole lines: it is empty, or it ends in a line feed. -/
def IsLines (text : String) : Prop := text.toList.getLast?.all (· == '\n') = true

instance (text : String) : Decidable (IsLines text) := inferInstanceAs (Decidable (_ = _))

theorem isLines_newLine (text : String) : IsLines (text ++ "\n") := by
  simp [IsLines]

theorem IsLines.append {text rest : String} (h : IsLines text) (hrest : IsLines rest) :
    IsLines (text ++ rest) := by
  unfold IsLines at h hrest ⊢
  rw [String.toList_append, List.getLast?_append]
  cases hlast : rest.toList.getLast? with
  | none => exact h
  | some last =>
    rw [hlast] at hrest
    exact hrest

/-- Texts of whole lines can be read one after the other. -/
theorem IsLines.wordLines_append {text : String} (h : IsLines text) (rest : String) :
    wordLines (text ++ rest) = wordLines text ++ wordLines rest := by
  have hempty : wordLines "" = [] := rfl
  rcases List.eq_nil_or_concat text.toList with hnil | ⟨init, last, hlast⟩
  · rw [String.toList_eq_nil_iff.mp hnil, String.empty_append, hempty, List.nil_append]
  · have htext : text = String.ofList init ++ "\n" := by
      simp only [IsLines, hlast, List.concat_eq_append, List.getLast?_append,
        List.getLast?_singleton, Option.some_or, Option.all_some, beq_iff_eq] at h
      apply String.toList_inj.mp
      simp [hlast, h]
    have hinit := Header.wordLines_append (String.ofList init) ""
    rw [hempty, List.append_nil, String.append_empty] at hinit
    rw [htext, Header.wordLines_append, hinit]

theorem wordLines_of_notMem {text : String} (h : '\n' ∉ text.toList) :
    wordLines text = [codeWords text].filter fun words => !words.isEmpty := by
  rw [wordLines, Text.splitText, Text.splitAll_of_notMem h]
  simp

end Header

end WireSchema
