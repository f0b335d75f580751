import Mathlib.Data.List.Forall2
import WireSchema.Proofs.HeaderText
import WireSchema.Proofs.Lists

/-!
# The words of a header

Every function that writes lines of a header has one lemma, which gives the words of its
lines: `words_defines` for the constants of an item, `constructWords_of_construct?` for
its construct.  Whatever is read off a header is read off these words.  The structs among
them are those of the items, member by member (`forall₂_structs`).
-/

namespace WireSchema

namespace Resolved

def Item.memberNames : Item → List String
  | .enum e => e.values.map Enumerator.name
  | .struct s => s.fields.map Field.name
  | _ => []

/-- An item all of whose names C can declare, those of the types it refers to included. -/
structure Item.Legible (item : Item) : Prop where
  name : CName item.name
  members : ∀ member ∈ item.memberNames, CName member
  types : ∀ s, item = .struct s → ∀ f ∈ s.fields, ∀ type,
    Header.fieldTypeName? f.type = some type → CName type

theorem Item.Legible.enumerators {e : Enum} (h : (Item.enum e).Legible) :
    ∀ v ∈ e.values, CName v.name :=
  fun v hv => h.members v.name (List.mem_map_of_mem hv)

theorem Item.Legible.fields {s : Struct} (h : (Item.struct s).Legible) :
    ∀ f ∈ s.fields, CName f.name :=
  fun f hf => h.members f.name (List.mem_map_of_mem hf)

def Item.struct? : Item → Option Struct
  | .struct s => some s
  | _ => none

end Resolved

namespace Header

/-! ### Names of types -/

def standardTypes : List String := ["uint8_t", "uint16_t", "uint32_t", "uint64_t"]

theorem typeName_mem_standardTypes (storage : Storage) :
    storage.typeName ∈ standardTypes := by
  cases storage <;> simp [Storage.typeName, standardTypes]

/-- A field is declared as bits or with the C name of its type. -/
theorem fieldDeclaration?_eq_some_iff {f : Resolved.Field} {declaration : String} :
    fieldDeclaration? f = some declaration ↔
      (fieldTypeName? f.type = none ∧ ∃ storage, Storage.ofWidth? f.width = some storage ∧
          storage.declare f.name = declaration) ∨
        ∃ type, fieldTypeName? f.type = some type ∧
          type ++ " " ++ f.name = declaration := by
  unfold fieldDeclaration?
  cases fieldTypeName? f.type <;> simp

/-! ### Words of lines -/

/-- The words of lines; lines without code are left out. -/
def words (lines : List HeaderLine) : List (List String) :=
  (lines.map fun line => codeWords line.text).filter fun words => !words.isEmpty

variable {line : HeaderLine} {lines : List HeaderLine} {spelled : List String}

@[simp] theorem words_append (first second : List HeaderLine) :
    words (first ++ second) = words first ++ words second := by
  simp [words]

@[simp] theorem words_flatten (parts : List (List HeaderLine)) :
    words parts.flatten = (parts.map words).flatten := by
  induction parts with
  | nil => rfl
  | cons part parts ih =>
    rw [List.flatten_cons, words_append, ih, List.map_cons, List.flatten_cons]

theorem words_cons (h : Spells line.code.toList spelled) :
    words (line :: lines) = [spelled].filter (fun words => !words.isEmpty) ++
      words lines := by
  rw [← List.singleton_append, words_append]
  simp [words, h.codeWords]

theorem words_code {code : String} {comment : Option String} {first : String}
    {more : List String} (h : Spells code.toList (first :: more)) :
    words [⟨code, comment⟩] = [first :: more] :=
  @words_cons ⟨code, comment⟩ [] _ h

theorem words_blankLine_cons : words (blankLine :: lines) = words lines :=
  @words_cons blankLine lines [] .nil

/-- Documentation is not read, whatever it says. -/
theorem words_docs {indent : String} (hindent : indent.toList.all (· == ' ') = true)
    (docs : List String) : words (docs.map (docLine indent)) = [] := by
  induction docs with
  | nil => rfl
  | cons doc docs ih => rw [List.map_cons, words_cons (spells_docLine hindent), ih]; rfl

theorem words_docs_none (docs : List String) : words (docs.map (docLine "")) = [] :=
  words_docs (by decide) docs

theorem words_docs_four (docs : List String) : words (docs.map (docLine "    ")) = [] :=
  words_docs (by decide) docs

/-! ### Constants -/

def constantWords : Resolved.Item → List (List String)
  | .parameter q =>
    [["#define", constantName q.name, toString q.value],
     ["#define", widthName q.name, toString q.width],
     ["#define", countWidthName q.name, toString q.countWidth],
     ["#define", widthOneName q.name, toString q.widthOne]]
  | item => [["#define", widthName item.name, toString item.width]]

theorem words_define {name note : String} {value : Nat} (hname : Capital name) :
    words (define name value note :: lines) = ["#define", name, toString value] ::
      words lines :=
  words_cons (spells_define hname.identifier)

theorem words_defines {item : Resolved.Item} (h : item.Legible) :
    words (defines item) = constantWords item := by
  have hname := h.name.isIdentifier
  cases item with
  | parameter q =>
    change isIdentifier q.name = true at hname
    rw [defines, parameterDefines, words_append, words_docs_none,
        words_define (capital_constantName hname), words_define (capital_widthName hname),
        words_define (capital_countWidthName hname),
        words_define (capital_widthOneName hname)]
    rfl
  | enum e => exact words_define (capital_widthName hname)
  | typedef d => exact words_define (capital_widthName hname)
  | struct s => exact words_define (capital_widthName hname)

/-! ### Constructs -/

inductive FieldWords (f : Resolved.Field) : List String → Prop
  | bits (storage : Storage) : fieldTypeName? f.type = none →
      FieldWords f [storage.typeName, f.name ++ (storage.suffix ++ ";")]
  | named {type : String} : fieldTypeName? f.type = some type →
      FieldWords f [type, f.name ++ ";"]

def enumeratorWords (v : Resolved.Enumerator) : List String :=
  [v.name, "=", toString v.value ++ ","]

/-- The words of the construct of an item. -/
inductive ConstructWords : Resolved.Item → List (List String) → Prop
  | parameter (q : Resolved.Parameter) : ConstructWords (.parameter q) []
  | enum (e : Resolved.Enum) :
      ConstructWords (.enum e) (["typedef", "enum", "\x7b"] ::
        (e.values.map enumeratorWords ++ [["\x7d", constantName e.name ++ ";"]]))
  | typedef (d : Resolved.Typedef) (storage : Storage) :
      ConstructWords (.typedef d)
        [["typedef", storage.typeName, d.name ++ (storage.suffix ++ ";")]]
  | struct (s : Resolved.Struct) {members : List (List String)} :
      List.Forall₂ FieldWords s.fields members →
      ConstructWords (.struct s) (["typedef", "struct", "_" ++ s.name, "\x7b"] ::
        (members ++ [["\x7d", s.name ++ ";"]]))

theorem words_enumerators {values : List Resolved.Enumerator}
    (h : ∀ v ∈ values, CName v.name) :
    words (values.flatMap enumeratorLines) = values.map enumeratorWords := by
  induction values with
  | nil => rfl
  | cons v values ih =>
    have hname := (h v List.mem_cons_self).isIdentifier
    have hrest := ih fun w hw => h w (List.mem_cons_of_mem v hw)
    rw [List.flatMap_cons, words_append, hrest, enumeratorLines, words_append,
        words_docs_four, words_code (spells_enumerator v.value hname)]
    rfl

theorem words_enumLines {e : Resolved.Enum} (h : (Resolved.Item.enum e).Legible) :
    words (enumLines e) = ["typedef", "enum", "\x7b"] ::
      (e.values.map enumeratorWords ++ [["\x7d", constantName e.name ++ ";"]]) := by
  have hname : isIdentifier (constantName e.name) = true :=
    (capital_constantName h.name.isIdentifier).identifier
  rw [enumLines, words_append, words_append, words_append, words_docs_none,
      words_code spells_enumOpening, words_enumerators h.enumerators,
      words_code (spells_closing hname)]
  rfl

theorem exists_words_field {f : Resolved.Field} (h : fieldLines? f = some lines)
    (hname : CName f.name)
    (htypes : ∀ type, fieldTypeName? f.type = some type → CName type) :
    ∃ member, FieldWords f member ∧ words lines = [member] := by
  obtain ⟨declaration, hdeclaration, rfl⟩ := fieldLines?_eq_some_iff.mp h
  rcases fieldDeclaration?_eq_some_iff.mp hdeclaration with
    ⟨hbits, storage, _, rfl⟩ | ⟨type, hnamed, rfl⟩
  · refine ⟨_, .bits storage hbits, ?_⟩
    rw [words_append, words_docs_four, words_code (spells_bits hname.isIdentifier storage)]
    rfl
  · refine ⟨_, .named hnamed, ?_⟩
    have htype := (htypes type hnamed).isIdentifier
    rw [words_append, words_docs_four, words_code (spells_member htype hname.isIdentifier)]
    rfl

theorem exists_words_fields {fields : List Resolved.Field} {parts : List (List HeaderLine)}
    (h : List.Forall₂ (fun f part => fieldLines? f = some part) fields parts)
    (hnames : ∀ f ∈ fields, CName f.name)
    (htypes : ∀ f ∈ fields, ∀ type, fieldTypeName? f.type = some type → CName type) :
    ∃ members, List.Forall₂ FieldWords fields members ∧ words parts.flatten = members := by
  induction h with
  | nil => exact ⟨[], .nil, rfl⟩
  | cons hf _ ih =>
    obtain ⟨hfname, hnames⟩ := List.forall_mem_cons.mp hnames
    obtain ⟨hftypes, htypes⟩ := List.forall_mem_cons.mp htypes
    obtain ⟨member, hmember, hwords⟩ := exists_words_field hf hfname hftypes
    obtain ⟨members, hmembers, hrest⟩ := ih hnames htypes
    refine ⟨member :: members, .cons hmember hmembers, ?_⟩
    rw [List.flatten_cons, words_append, hwords, hrest]
    rfl

/-- The construct of an item that is written has these words. -/
theorem constructWords_of_construct? {item : Resolved.Item}
    (h : construct? item = some lines) (hlegible : item.Legible) :
    ConstructWords item (words lines) := by
  cases item with
  | parameter q =>
    cases h
    exact .parameter q
  | enum e =>
    cases h
    rw [words_blankLine_cons, words_enumLines hlegible]
    exact .enum e
  | typedef d =>
    obtain ⟨rest, hrest, rfl⟩ := Option.map_eq_some_iff.mp h
    obtain ⟨storage, _, rfl⟩ := typedefLines?_eq_some_iff.mp hrest
    have hname : isIdentifier d.name = true := hlegible.name.isIdentifier
    rw [words_blankLine_cons, words_append, words_docs_none,
        words_code (spells_typedef hname storage)]
    exact .typedef d storage
  | struct s =>
    obtain ⟨rest, hrest, rfl⟩ := Option.map_eq_some_iff.mp h
    obtain ⟨parts, hparts, rfl⟩ := structLines?_eq_some_iff.mp hrest
    have hname : isIdentifier s.name = true := hlegible.name.isIdentifier
    obtain ⟨members, hmembers, hwords⟩ :=
      exists_words_fields (mapM_eq_some_iff.mp hparts) hlegible.fields (hlegible.types s rfl)
    rw [words_blankLine_cons, words_append, words_append, words_append, words_docs_none,
      words_code (spells_structOpening hname), hwords, words_code (spells_closing hname)]
    exact .struct s hmembers

/-! ### Packages -/

theorem words_packageDocs (p : Package) : words (packageDocs p) = [] := by
  unfold packageDocs
  split
  · rw [words_append, words_docs_none, words_blankLine_cons]
    rfl
  · rfl

theorem words_flatMap_defines {items : List Resolved.Item}
    (h : ∀ item ∈ items, item.Legible) :
    words (items.flatMap defines) = items.flatMap constantWords := by
  induction items with
  | nil => rfl
  | cons item items ih =>
    obtain ⟨hitem, hitems⟩ := List.forall_mem_cons.mp h
    rw [List.flatMap_cons, words_append, words_defines hitem, ih hitems, List.flatMap_cons]

/-- The body of a header has the constants of all items, and then their constructs. -/
theorem exists_words_body {p : Package} (h : body? p = some lines)
    (hlegible : ∀ item ∈ p.items, item.Legible) :
    ∃ constructs, List.Forall₂ ConstructWords p.items constructs ∧
      words lines = p.items.flatMap constantWords ++ constructs.flatten := by
  obtain ⟨constructs, hconstructs, rfl⟩ := body?_eq_some_iff.mp h
  refine ⟨constructs.map words, ?_, ?_⟩
  · rw [List.forall₂_map_right_iff]
    have hall := (List.forall₂_and_left _ _).mpr ⟨hlegible, mapM_eq_some_iff.mp hconstructs⟩
    exact hall.imp fun item construct hitem => constructWords_of_construct? hitem.2 hitem.1
  · rw [words_append, words_append, words_packageDocs, words_flatMap_defines hlegible,
      words_flatten]
    rfl

/-! ### Structs -/

/-- The line declares the field, with a type of bits or the C name of its type. -/
def DeclaresField (f : Resolved.Field) (line : List String) : Prop :=
  ∃ type, member? line = some (type, f.name) ∧
    ((fieldTypeName? f.type = none ∧ type ∈ standardTypes) ∨
      fieldTypeName? f.type = some type)

/-- A struct that is read has the tag and the fields of the struct of a package. -/
def DeclaresStruct (s : Resolved.Struct) (found : String × List (List String)) : Prop :=
  found.1 = "_" ++ s.name ∧ List.Forall₂ DeclaresField s.fields found.2

theorem member?_cons {type name tail : String} (htype : isIdentifier type = true)
    (hname : isIdentifier name = true) (htail : IsTail tail) :
    member? [type, name ++ tail] = some (type, name) := by
  simp [member?, htype, leadingName?_append hname htail]

theorem FieldWords.declaresField {f : Resolved.Field} {line : List String}
    (h : FieldWords f line) (hname : CName f.name)
    (htypes : ∀ type, fieldTypeName? f.type = some type → CName type) :
    DeclaresField f line := by
  cases h with
  | bits storage hbits =>
    have htype := isIdentifier_typeName storage
    refine ⟨_, member?_cons htype hname.isIdentifier (isTail_suffix storage),
        .inl ⟨hbits, ?_⟩⟩
    exact typeName_mem_standardTypes storage
  | named hnamed =>
    have htype := (htypes _ hnamed).isIdentifier
    exact ⟨_, member?_cons htype hname.isIdentifier isTail_semicolon, .inr hnamed⟩

/-- The lines between the braces of a struct declare its fields, one by one. -/
theorem declaresFields {s : Resolved.Struct} {members : List (List String)}
    (h : List.Forall₂ FieldWords s.fields members)
    (hlegible : (Resolved.Item.struct s).Legible) :
    List.Forall₂ DeclaresField s.fields members := by
  have hboth := (List.forall₂_and_left _ _).mpr ⟨fun f hf => hf, h⟩
  apply hboth.imp
  intro f line hf
  exact hf.2.declaresField (hlegible.fields f hf.1) (hlegible.types s rfl f hf.1)

theorem exists_member? {fields : List Resolved.Field} {members : List (List String)}
    (h : List.Forall₂ DeclaresField fields members) :
    ∀ line ∈ members, ∃ member, member? line = some member := by
  intro line hline
  obtain ⟨f, _, type, hmember, _⟩ := exists_of_forall₂_left h.flip hline
  exact ⟨_, hmember⟩

theorem exists_of_member? {line : List String} {type name : String}
    (h : member? line = some (type, name)) :
    ∃ second, line = [type, second] ∧ isIdentifier type = true := by
  unfold member? at h
  split at h
  · rename_i first second
    by_cases hfirst : isIdentifier first = true
    · rw [if_pos hfirst] at h
      obtain ⟨_, _, hpair⟩ := Option.map_eq_some_iff.mp h
      cases hpair
      exact ⟨second, rfl, hfirst⟩
    · rw [if_neg hfirst] at h
      cases h
  · cases h

/-- No line of a construct begins like a constant. -/
theorem ConstructWords.head?_ne {item : Resolved.Item} {lines : List (List String)}
    (h : ConstructWords item lines) (hlegible : item.Legible) :
    ∀ line ∈ lines, line.head? ≠ some "#define" := by
  have hidentifier : ∀ name more, isIdentifier name = true →
      (name :: more : List String).head? ≠ some "#define" := by
    rintro name more hname ⟨⟩
    exact absurd hname (by decide)
  cases h with
  | parameter q => simp
  | enum e =>
    simp only [List.mem_cons, List.mem_append, List.mem_map, List.not_mem_nil, or_false]
    rintro line (rfl | ⟨v, hv, rfl⟩ | rfl)
    · decide
    · exact hidentifier _ _ (hlegible.enumerators v hv).isIdentifier
    · simp
  | typedef d storage => simp
  | struct s hfields =>
    simp only [List.mem_cons, List.mem_append, List.not_mem_nil, or_false]
    rintro line (rfl | hline | rfl)
    · simp
    · obtain ⟨⟨type, name⟩, hmember⟩ :=
        exists_member? (declaresFields hfields hlegible) line hline
      obtain ⟨second, rfl, htype⟩ := exists_of_member? hmember
      exact hidentifier _ _ htype
    · simp

theorem structs_append_of_tag? {above below : List (List String)}
    (h : ∀ line ∈ above, tag? line = none) : structs (above ++ below) = structs below := by
  induction above with
  | nil => rfl
  | cons line above ih =>
    obtain ⟨hline, habove⟩ := List.forall_mem_cons.mp h
    rw [List.cons_append, structs, hline]
    exact ih habove

theorem exists_of_mem_constantWords {item : Resolved.Item} {line : List String}
    (h : line ∈ constantWords item) : ∃ name value, line = ["#define", name, value] := by
  cases item with
  | parameter q =>
    simp only [constantWords, List.mem_cons, List.not_mem_nil, or_false] at h
    rcases h with rfl | rfl | rfl | rfl <;> exact ⟨_, _, rfl⟩
  | _ => exact ⟨_, _, List.mem_singleton.mp h⟩

/-- The lines of a struct up to its closing brace are those of its members. -/
theorem structs_struct {tag closing : String} {members below : List (List String)}
    (h : ∀ line ∈ members, ∃ member, member? line = some member) :
    structs ((["typedef", "struct", tag, "\x7b"] :: (members ++ [["\x7d", closing]])) ++
        below) =
      (tag, members) :: structs below := by
  have hmember : ∀ line ∈ members, tag? line = none ∧
      (line.head? != some "\x7d") = true := by
    intro line hline
    obtain ⟨⟨type, name⟩, hmember⟩ := h line hline
    obtain ⟨second, rfl, htype⟩ := exists_of_member? hmember
    refine ⟨rfl, ?_⟩
    simp only [List.head?_cons, bne_iff_ne, ne_eq, Option.some.injEq]
    rintro rfl
    exact absurd htype (by decide)
  have htag : tag? ["typedef", "struct", tag, "\x7b"] = some tag := by simp [tag?]
  have hinner : (members ++ ["\x7d", closing] :: below).takeWhile
      (fun inner => inner.head? != some "\x7d") = members := by
    rw [List.takeWhile_append_of_pos fun line hline => (hmember line hline).2]
    simp
  have hrest : structs (members ++ ["\x7d", closing] :: below) = structs below := by
    rw [structs_append_of_tag? fun line hline => (hmember line hline).1]
    rfl
  rw [List.cons_append, List.append_assoc, List.singleton_append, structs, htag,
      hinner, hrest]

/-- The structs in the words of constructs are the structs among their items. -/
theorem forall₂_structs_flatten {items : List Resolved.Item}
    {constructs : List (List (List String))}
    (h : List.Forall₂ ConstructWords items constructs)
    (hlegible : ∀ item ∈ items, item.Legible) :
    List.Forall₂ DeclaresStruct (items.filterMap Resolved.Item.struct?)
      (structs constructs.flatten) := by
  induction h with
  | nil => exact .nil
  | cons hwords _ ih =>
    obtain ⟨hitem, hitems⟩ := List.forall_mem_cons.mp hlegible
    rw [List.flatten_cons]
    cases hwords with
    | parameter q => exact ih hitems
    | enum e =>
      rw [structs_append_of_tag?]
      · exact ih hitems
      · simp only [List.mem_cons, List.mem_append, List.mem_map, List.not_mem_nil, or_false]
        rintro line (rfl | ⟨v, _, rfl⟩ | rfl) <;> rfl
    | typedef d storage =>
      rw [structs_append_of_tag?]
      · exact ih hitems
      · simp [tag?]
    | struct s hfields =>
      have hall := declaresFields hfields hitem
      rw [structs_struct (exists_member? hall)]
      exact .cons ⟨rfl, hall⟩ (ih hitems)

/-- The structs of a header are those of the package, in its order and with their fields. -/
theorem forall₂_structs {items : List Resolved.Item}
    {constructs : List (List (List String))}
    (h : List.Forall₂ ConstructWords items constructs)
    (hlegible : ∀ item ∈ items, item.Legible) :
    List.Forall₂ DeclaresStruct (items.filterMap Resolved.Item.struct?)
      (structs (items.flatMap constantWords ++ constructs.flatten)) := by
  rw [structs_append_of_tag?]
  · exact forall₂_structs_flatten h hlegible
  · intro line hline
    obtain ⟨item, _, hline⟩ := List.mem_flatMap.mp hline
    obtain ⟨name, value, rfl⟩ := exists_of_mem_constantWords hline
    rfl

end Header

end WireSchema
