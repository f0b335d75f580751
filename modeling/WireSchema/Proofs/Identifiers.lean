import WireSchema.Proofs.Registration

/-!
# Names that C can declare

Registration checks the names that are written in a schema.  The header also declares
names that are made from them, in upper case and with endings, and no check looks at
those.  They are valid nevertheless: upper-casing keeps identifiers, and what has no
lower-case letter is no keyword, because every keyword has one.
-/

namespace WireSchema

/-- A name that C can declare: a letter or an underscore, then letters, digits and
    underscores, and no keyword. -/
structure CName (name : String) : Prop where
  identifier : ∃ first rest, name.toList = first :: rest ∧ (first.isAlpha ∨ first = '_') ∧
    ∀ c ∈ rest, c.isAlphanum ∨ c = '_'
  notKeyword : name ∉ cKeywords

/-! ### Identifiers -/

theorem isIdentifier_iff {name : String} :
    isIdentifier name = true ↔ ∃ first rest, name.toList = first :: rest ∧
      (first.isAlpha ∨ first = '_') ∧
      ∀ c ∈ rest, c.isAlphanum ∨ c = '_' := by
  unfold isIdentifier
  cases name.toList with
  | nil => simp [isIdentifierChars]
  | cons first rest => simp [isIdentifierChars, isIdentifierStart, isIdentifierRest]

theorem isIdentifierRest_of_isIdentifier {name : String} (h : isIdentifier name = true) :
    ∀ c ∈ name.toList, isIdentifierRest c = true := by
  obtain ⟨first, rest, hname, hfirst, hrest⟩ := isIdentifier_iff.mp h
  rw [hname]
  intro c hc
  rcases List.mem_cons.mp hc with rfl | hc
  · rcases hfirst with hfirst | rfl
    · simp [isIdentifierRest, Char.isAlphanum, hfirst]
    · rfl
  · simpa [isIdentifierRest] using hrest c hc

/-- An identifier can be extended by characters that may stand in one. -/
theorem isIdentifier_append {name ending : String} (h : isIdentifier name = true)
    (hending : ∀ c ∈ ending.toList, isIdentifierRest c = true) :
    isIdentifier (name ++ ending) = true := by
  unfold isIdentifier at h ⊢
  rw [String.toList_append]
  cases hname : name.toList with
  | nil => simp [hname, isIdentifierChars] at h
  | cons first rest =>
    rw [hname] at h
    simp only [isIdentifierChars, Bool.and_eq_true, List.all_eq_true, List.cons_append,
        List.mem_append] at h ⊢
    refine ⟨h.1, ?_⟩
    rintro c (hc | hc)
    · exact h.2 c hc
    · exact hending c hc

theorem ascii_of_isIdentifierRest {c : Char} (h : isIdentifierRest c = true) :
    c.toNat < 128 := by
  -- the ranges of capitals, small letters and digits
  change ((decide (65 ≤ c.val ∧ c.val ≤ 90) ||
        (decide (97 ≤ c.val) && decide (c.val ≤ 122))) ||
      (decide (48 ≤ c.val) && decide (c.val ≤ 57)) || c == '_') = true at h
  simp only [Bool.or_eq_true, Bool.and_eq_true, decide_eq_true_eq, beq_iff_eq,
      UInt32.le_iff_toNat_le] at h
  rcases h with ((h | h) | h) | rfl
  · exact Nat.lt_of_le_of_lt h.2 (by decide)
  · exact Nat.lt_of_le_of_lt h.2 (by decide)
  · exact Nat.lt_of_le_of_lt h.2 (by decide)
  · decide

/-- What can be checked of the first 128 characters holds of every character of ASCII. -/
theorem of_ascii {motive : Char → Prop} (h : ∀ n < 128, motive (Char.ofNat n)) {c : Char}
    (hc : c.toNat < 128) : motive c := by
  have hmotive := h c.toNat hc
  rw [Char.ofNat_toNat] at hmotive
  exact hmotive

theorem of_isIdentifierRest {motive : Char → Prop}
    (h : ∀ n < 128, isIdentifierRest (Char.ofNat n) = true → motive (Char.ofNat n))
    {c : Char} (hc : isIdentifierRest c = true) : motive c :=
  of_ascii (motive := fun c => isIdentifierRest c = true → motive c) h
    (ascii_of_isIdentifierRest hc) hc

theorem isIdentifierRest_toUpper {c : Char} (h : isIdentifierRest c = true) :
    isIdentifierRest c.toUpper = true ∧ c.toUpper.isLower = false :=
  of_isIdentifierRest (motive := fun c => isIdentifierRest c.toUpper = true ∧
      c.toUpper.isLower = false) (by decide) h

theorem isIdentifierStart_toUpper {c : Char} (hrest : isIdentifierRest c = true)
    (h : isIdentifierStart c = true) : isIdentifierStart c.toUpper = true :=
  of_isIdentifierRest (motive := fun c => isIdentifierStart c = true →
      isIdentifierStart c.toUpper = true) (by decide) hrest h

theorem toList_upper {name : String} (h : isIdentifier name = true) :
    (Text.upper name).toList = name.toList.map Char.toUpper := by
  unfold Text.upper
  rw [String.toList_ofList, ← List.flatMap_pure_eq_map]
  apply List.flatMap_congr
  intro c hc
  have hascii := ascii_of_isIdentifierRest (isIdentifierRest_of_isIdentifier h c hc)
  simp [Text.upperChar, hascii]

/-! ### Names in capitals -/

structure Capital (name : String) : Prop where
  identifier : isIdentifier name = true
  noLower : ∀ c ∈ name.toList, c.isLower = false

/-- No keyword is written without lower-case letters. -/
theorem Capital.cName {name : String} (h : Capital name) : CName name where
  identifier := isIdentifier_iff.mp h.identifier
  notKeyword := by
    have hkeywords : ∀ keyword ∈ cKeywords, keyword.toList.any Char.isLower = true := by
      decide
    intro hmem
    obtain ⟨c, hc, hlower⟩ := List.any_eq_true.mp (hkeywords name hmem)
    rw [h.noLower c hc] at hlower
    cases hlower

theorem Capital.append {name ending : String} (h : Capital name)
    (hending : ending.toList.all (fun c => isIdentifierRest c && !c.isLower) = true) :
    Capital (name ++ ending) := by
  simp only [List.all_eq_true, Bool.and_eq_true, Bool.not_eq_true'] at hending
  constructor
  · exact isIdentifier_append h.identifier fun c hc => (hending c hc).1
  · intro c hc
    rw [String.toList_append, List.mem_append] at hc
    rcases hc with hc | hc
    · exact h.noLower c hc
    · exact (hending c hc).2

/-- The upper-case form of an identifier is one without lower-case letters. -/
theorem capital_constantName {name : String} (h : isIdentifier name = true) :
    Capital (constantName name) := by
  have hchars := isIdentifierRest_of_isIdentifier h
  constructor
  · unfold isIdentifier at h ⊢
    rw [constantName, toList_upper h]
    cases hname : name.toList with
    | nil => simp [hname, isIdentifierChars] at h
    | cons first rest =>
      rw [hname] at h hchars
      simp only [isIdentifierChars, Bool.and_eq_true, List.all_eq_true, List.map_cons,
          List.mem_map] at h ⊢
      refine ⟨isIdentifierStart_toUpper (hchars first List.mem_cons_self) h.1, ?_⟩
      rintro _ ⟨c, hc, rfl⟩
      exact (isIdentifierRest_toUpper (h.2 c hc)).1
  · rw [constantName, toList_upper h]
    intro _ hupper
    obtain ⟨c, hc, rfl⟩ := List.mem_map.mp hupper
    exact (isIdentifierRest_toUpper (hchars c hc)).2

theorem capital_widthName {name : String} (h : isIdentifier name = true) :
    Capital (widthName name) :=
  (capital_constantName h).append (by decide)

theorem capital_countWidthName {name : String} (h : isIdentifier name = true) :
    Capital (countWidthName name) :=
  (capital_constantName h).append (by decide)

theorem capital_widthOneName {name : String} (h : isIdentifier name = true) :
    Capital (widthOneName name) :=
  (capital_constantName h).append (by decide)

/-! ### Names that are registered -/

/-- A name breaks no rule if it is an identifier that neither language keeps for
    itself. -/
theorem brokenRule?_eq_none_iff {name : String} :
    brokenRule? name = none ↔ isIdentifier name = true ∧ name ∉ reservedWords ∧
      name ∉ cKeywords := by
  unfold brokenRule?
  by_cases hidentifier : isIdentifier name = true
  · by_cases hreserved : name ∈ reservedWords
    · simp [hidentifier, hreserved]
    · by_cases hkeyword : name ∈ cKeywords <;> simp [hidentifier, hreserved, hkeyword]
  · simp [hidentifier]

theorem cName_of_brokenRule? {name : String} (h : brokenRule? name = none) :
    CName name := by
  obtain ⟨hidentifier, _, hkeyword⟩ := brokenRule?_eq_none_iff.mp h
  exact ⟨isIdentifier_iff.mp hidentifier, hkeyword⟩

theorem CName.isIdentifier {name : String} (h : CName name) : isIdentifier name = true :=
  isIdentifier_iff.mpr h.identifier

namespace Decl

def memberNames (d : Decl) : List String :=
  match d.members? with
  | some (members, _, _) => members
  | none => []

theorem WellFormed.cName {d : Decl} (h : d.WellFormed) : CName d.name :=
  cName_of_brokenRule? h.brokenRule?

theorem WellFormed.memberNames {d : Decl} (h : d.WellFormed) :
    (∀ member ∈ d.memberNames, CName member) ∧ d.memberNames.Nodup := by
  unfold Decl.memberNames
  cases hmembers : d.members? with
  | none => simp
  | some members =>
    obtain ⟨hrules, hnodup⟩ := members_of_memberFault? hmembers h.members
    exact ⟨fun member hmember => cName_of_brokenRule? (hrules member hmember), hnodup⟩

/-- C can declare every identifier that is generated for a well-formed declaration. -/
theorem WellFormed.identifiers {d : Decl} (h : d.WellFormed) :
    ∀ name ∈ d.identifiers, CName name := by
  have hname := h.cName
  have hmembers := h.memberNames.1
  have hidentifier := hname.isIdentifier
  intro name hmem
  -- the constant of the width comes first for every kind
  rcases List.mem_cons.mp hmem with rfl | hmem
  · exact (capital_widthName hidentifier).cName
  · cases d with
    | parameter q =>
      simp only [List.map_cons, List.map_nil, List.mem_cons, List.not_mem_nil, or_false]
        at hmem
      rcases hmem with rfl | rfl | rfl
      · exact (capital_constantName hidentifier).cName
      · exact (capital_countWidthName hidentifier).cName
      · exact (capital_widthOneName hidentifier).cName
    | enum e =>
      simp only [List.map_cons, List.map_map, List.mem_cons] at hmem
      rcases hmem with rfl | hmem
      · exact (capital_constantName hidentifier).cName
      · exact hmembers name hmem
    | typedef q =>
      rw [List.mem_singleton.mp hmem]
      exact hname
    | struct s =>
      rw [List.mem_singleton.mp hmem]
      exact hname

end Decl

end WireSchema
