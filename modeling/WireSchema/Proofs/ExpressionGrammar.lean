import WireSchema.Proofs.Identifiers
import WireSchema.Proofs.Literals
import WireSchema.Proofs.Numerals
import WireSchema.Proofs.Splitting
import WireSchema.Proofs.WhiteSpace
import WireSchema.Proofs.Words

/-!
# The grammar of expressions

An expression is a decimal integer, `NAME`, `NAME.value` or `NAME.width`.  `Expr.Written`
is this grammar, one rule for each form.  The parser tries the forms in turn and splits a
reference at its last point, so it has to be shown that no text has two readings: no
integer begins like an identifier, and no identifier holds a point.
-/

namespace WireSchema

namespace Expr

/-- The characters spell an expression. -/
inductive Written : List Char → Expr → Prop
  | literal {cs : List Char} {k : Int} (hdecimal : Text.IsDecimal cs k)
      (hlow : -2 ^ 63 ≤ k) (hhigh : k < 2 ^ 63) : Written cs (.literal k)
  | name {n : String} (hname : isIdentifier n = true) : Written n.toList (.ref n .value)
  | value {n : String} (hname : isIdentifier n = true) :
      Written (n ++ ".value").toList (.ref n .value)
  | width {n : String} (hname : isIdentifier n = true) :
      Written (n ++ ".width").toList (.ref n .width)

theorem written_literal_iff {cs : List Char} {k : Int} :
    Written cs (.literal k) ↔ Text.IsDecimal cs k ∧ -2 ^ 63 ≤ k ∧ k < 2 ^ 63 := by
  constructor
  · rintro ⟨hdecimal, hlow, hhigh⟩
    exact ⟨hdecimal, hlow, hhigh⟩
  · rintro ⟨hdecimal, hlow, hhigh⟩
    exact .literal hdecimal hlow hhigh

theorem written_value_iff {cs : List Char} {n : String} :
    Written cs (.ref n .value) ↔ isIdentifier n = true ∧
      (cs = n.toList ∨ cs = (n ++ ".value").toList) := by
  constructor
  · intro h
    cases h with
    | name hname => exact ⟨hname, .inl rfl⟩
    | value hname => exact ⟨hname, .inr rfl⟩
  · rintro ⟨hname, rfl | rfl⟩
    · exact .name hname
    · exact .value hname

theorem written_width_iff {cs : List Char} {n : String} :
    Written cs (.ref n .width) ↔ isIdentifier n = true ∧ cs = (n ++ ".width").toList := by
  constructor
  · intro h
    cases h with
    | width hname => exact ⟨hname, rfl⟩
  · rintro ⟨hname, rfl⟩
    exact .width hname

/-! ### No text has two readings -/

theorem literal?_eq_some_iff {cs : List Char} {k : Int} :
    literal? cs = some k ↔ Text.IsDecimal cs k ∧ -2 ^ 63 ≤ k ∧ k < 2 ^ 63 := by
  unfold literal?
  rw [← Text.signed?_eq_some_iff, ← isSigned64_iff]
  cases Text.signed? 10 cs with
  | none => simp
  | some n =>
    simp only [Option.ite_none_right_eq_some, Option.some.injEq]
    constructor
    · rintro ⟨hsigned, rfl⟩
      exact ⟨rfl, hsigned⟩
    · rintro ⟨rfl, hsigned⟩
      exact ⟨hsigned, rfl⟩

theorem not_isDecimal_of_start {c : Char} {cs : List Char}
    (h : isIdentifierStart c = true) (k : Int) : ¬ Text.IsDecimal (c :: cs) k := by
  intro hdecimal
  have hrest : isIdentifierRest c = true := by
    simp only [isIdentifierStart, isIdentifierRest, Char.isAlphanum, Bool.or_eq_true] at h ⊢
    exact h.imp_left Or.inl
  have hdigit : c.isDigit = false ∧ c ≠ '+' ∧ c ≠ '-' :=
    of_isIdentifierRest (motive := fun c => isIdentifierStart c = true →
      c.isDigit = false ∧ c ≠ '+' ∧ c ≠ '-') (by decide) hrest h
  cases hdecimal with
  | plain _ hdigits => simp [hdigit.1] at hdigits
  | plus => exact hdigit.2.1 rfl
  | minus => exact hdigit.2.2 rfl

theorem literal?_append_of_isIdentifier {n : String} (h : isIdentifier n = true)
    (rest : List Char) : literal? (n.toList ++ rest) = none := by
  rw [Option.eq_none_iff_forall_ne_some]
  intro k hk
  have hdecimal := (literal?_eq_some_iff.mp hk).1
  cases hname : n.toList with
  | nil => simp [isIdentifier, isIdentifierChars, hname] at h
  | cons c cs =>
    simp only [isIdentifier, isIdentifierChars, hname, Bool.and_eq_true] at h
    rw [hname, List.cons_append] at hdecimal
    exact not_isDecimal_of_start h.1 k hdecimal

theorem point_notMem_of_isIdentifier {n : String} (h : isIdentifier n = true) :
    '.' ∉ n.toList := by
  intro hmem
  exact absurd (isIdentifierRest_of_isIdentifier h '.' hmem) (by decide)

/-! ### The parser and the grammar -/

theorem target?_of_isIdentifier {n : String} (h : isIdentifier n = true) :
    target? n.toList = some (n.toList, .value) := by
  unfold target?
  rw [Text.splitLast?_of_notMem (point_notMem_of_isIdentifier h)]

theorem target?_append_point (name quantity : List Char) (h : '.' ∉ quantity) :
    target? (name ++ '.' :: quantity) =
      if quantity = ['v', 'a', 'l', 'u', 'e'] then some (name, .value)
      else if quantity = ['w', 'i', 'd', 't', 'h'] then some (name, .width)
      else none := by
  unfold target?
  rw [Text.splitLast?_append_mark h]

/-- A reference is a name, or a name with one of the two endings. -/
theorem eq_of_target? {cs name : List Char} {quantity : Quantity}
    (h : target? cs = some (name, quantity)) :
    (quantity = .value ∧ (cs = name ∨ cs = name ++ ".value".toList)) ∨
      (quantity = .width ∧ cs = name ++ ".width".toList) := by
  unfold target? at h
  split at h
  · cases h
    exact .inl ⟨rfl, .inl rfl⟩
  · rename_i before after hsplit
    have hcs := Text.append_of_splitLast? hsplit
    split_ifs at h with hvalue hwidth
    · cases h
      rw [hcs, hvalue]
      exact .inl ⟨rfl, .inr rfl⟩
    · cases h
      rw [hcs, hwidth]
      exact .inr ⟨rfl, rfl⟩

theorem parseChars_of_literal? {cs : List Char} {k : Int} (h : literal? cs = some k) :
    parseChars cs = some (.literal k) := by
  rw [parseChars, h]

theorem parseChars_of_target? {cs : List Char} {n : String} {quantity : Quantity}
    (hliteral : literal? cs = none) (htarget : target? cs = some (n.toList, quantity))
    (hname : isIdentifier n = true) : parseChars cs = some (.ref n quantity) := by
  unfold isIdentifier at hname
  simp only [parseChars, hliteral, htarget, hname, if_true, String.ofList_toList]

/-- Everything that the grammar allows is parsed, to the expression that it spells. -/
theorem parseChars_of_written {cs : List Char} {e : Expr} (h : Written cs e) :
    parseChars cs = some e := by
  cases h with
  | literal hdecimal hlow hhigh =>
    exact parseChars_of_literal? (literal?_eq_some_iff.mpr ⟨hdecimal, hlow, hhigh⟩)
  | @name n hname =>
    have hliteral := literal?_append_of_isIdentifier hname []
    rw [List.append_nil] at hliteral
    exact parseChars_of_target? hliteral (target?_of_isIdentifier hname) hname
  | value hname =>
    rw [String.toList_append]
    apply parseChars_of_target? (literal?_append_of_isIdentifier hname _) _ hname
    exact target?_append_point _ ['v', 'a', 'l', 'u', 'e'] (by decide)
  | width hname =>
    rw [String.toList_append]
    apply parseChars_of_target? (literal?_append_of_isIdentifier hname _) _ hname
    exact target?_append_point _ ['w', 'i', 'd', 't', 'h'] (by decide)

/-- Nothing else is parsed. -/
theorem written_of_parseChars {cs : List Char} {e : Expr} (h : parseChars cs = some e) :
    Written cs e := by
  unfold parseChars at h
  cases hliteral : literal? cs with
  | some k =>
    rw [hliteral] at h
    cases h
    obtain ⟨hdecimal, hlow, hhigh⟩ := literal?_eq_some_iff.mp hliteral
    exact .literal hdecimal hlow hhigh
  | none =>
    cases htarget : target? cs with
    | none => simp [hliteral, htarget] at h
    | some target =>
      obtain ⟨name, quantity⟩ := target
      simp only [hliteral, htarget, Option.ite_none_right_eq_some, Option.some.injEq] at h
      obtain ⟨hchars, rfl⟩ := h
      have hname : isIdentifier (String.ofList name) = true := by
        rw [isIdentifier, String.toList_ofList]
        exact hchars
      have happend : ∀ ending : String, name ++ ending.toList =
          (String.ofList name ++ ending).toList := by
        intro ending
        rw [String.toList_append, String.toList_ofList]
      obtain ⟨rfl, rfl | rfl⟩ | ⟨rfl, rfl⟩ := eq_of_target? htarget
      · have hwritten := Written.name hname
        rw [String.toList_ofList] at hwritten
        exact hwritten
      · rw [happend]
        exact .value hname
      · rw [happend]
        exact .width hname

theorem parse_eq_some_iff {text : String} {core : List Char}
    (hcore : Text.IsCore text.toList core) {e : Expr} :
    parse text = some e ↔ Written core e := by
  rw [parse, hcore.trimChars_eq]
  exact ⟨written_of_parseChars, parseChars_of_written⟩

/-! ### Printing -/

def spellings : Expr → List String
  | .literal k => [toString k]
  | .ref n .value => [n, n ++ ".value"]
  | .ref n .width => [n ++ ".width"]

theorem written_of_mem_spellings {e : Expr} (hsigned : e.Signed)
    (hname : ∀ n, e.reference = some n → isIdentifier n = true) {text : String}
    (h : text ∈ e.spellings) : Written text.toList e := by
  match e with
  | .literal k =>
    rw [List.mem_singleton.mp h]
    obtain ⟨hlow, hhigh⟩ := isSigned64_iff.mp hsigned
    exact .literal (Text.isDecimal_toString k) hlow hhigh
  | .ref n .value =>
    rcases List.mem_cons.mp h with rfl | h
    · exact .name (hname _ rfl)
    · rw [List.mem_singleton.mp h]
      exact .value (hname n rfl)
  | .ref n .width =>
    rw [List.mem_singleton.mp h]
    exact .width (hname n rfl)

theorem isBlank_of_isIdentifier {n : String} (h : isIdentifier n = true) :
    ∀ c ∈ n.toList, Text.isBlank c = false := by
  intro c hc
  exact of_isIdentifierRest (motive := fun c => Text.isBlank c = false) (by decide)
    (isIdentifierRest_of_isIdentifier h c hc)

theorem isBlank_of_isDigit {c : Char} (h : c.isDigit = true) : Text.isBlank c = false := by
  have hrest : isIdentifierRest c = true := by simp [isIdentifierRest, Char.isAlphanum, h]
  exact of_isIdentifierRest (motive := fun c => Text.isBlank c = false) (by decide) hrest

theorem isBlank_of_all {cs : List Char} (h : (cs.all fun c => !Text.isBlank c) = true) :
    ∀ c ∈ cs, Text.isBlank c = false := by
  simpa using h

/-- A written expression holds no white space. -/
theorem Written.isBlank {cs : List Char} {e : Expr} (h : Written cs e) :
    ∀ c ∈ cs, Text.isBlank c = false := by
  cases h with
  | literal hdecimal _ _ =>
    cases hdecimal with
    | plain _ hdigits => exact fun c hc => isBlank_of_isDigit (hdigits c hc)
    | plus _ hdigits =>
      exact List.forall_mem_cons.mpr
        ⟨by decide, fun c hc => isBlank_of_isDigit (hdigits c hc)⟩
    | minus _ hdigits =>
      exact List.forall_mem_cons.mpr
        ⟨by decide, fun c hc => isBlank_of_isDigit (hdigits c hc)⟩
  | name hname => exact isBlank_of_isIdentifier hname
  | value hname =>
    rw [String.toList_append, List.forall_mem_append]
    exact ⟨isBlank_of_isIdentifier hname, isBlank_of_all (by decide)⟩
  | width hname =>
    rw [String.toList_append, List.forall_mem_append]
    exact ⟨isBlank_of_isIdentifier hname, isBlank_of_all (by decide)⟩

theorem Written.isCore {text before after : String} {e : Expr} (h : Written text.toList e)
    (hbefore : before.toList.all Text.isBlank = true)
    (hafter : after.toList.all Text.isBlank = true) :
    Text.IsCore (before ++ text ++ after).toList text.toList := by
  rw [List.all_eq_true] at hbefore hafter
  refine ⟨⟨before.toList, after.toList, ?_, hbefore, hafter⟩, ?_, ?_⟩
  · rw [String.toList_append, String.toList_append]
  · intro c hc
    exact h.isBlank c (List.mem_of_mem_head? hc)
  · intro c hc
    exact h.isBlank c (List.mem_of_mem_getLast? hc)

/-- **A text is read as an expression exactly if the grammar writes it so, and what is
    printed is read back.**  White space around the text does not count. -/
theorem parse_exact :
    (∀ text : String, ∃! core, Text.IsCore text.toList core) ∧
    (∀ (text : String) (core : List Char), Text.IsCore text.toList core →
      (∀ k, parse text = some (.literal k) ↔
        Text.IsDecimal core k ∧ -2 ^ 63 ≤ k ∧ k < 2 ^ 63) ∧
      (∀ n, parse text = some (.ref n .value) ↔
        isIdentifier n = true ∧ (core = n.toList ∨ core = (n ++ ".value").toList)) ∧
      (∀ n, parse text = some (.ref n .width) ↔
        isIdentifier n = true ∧ core = (n ++ ".width").toList) ∧
      (parse text = none ↔ ∀ e, ¬ Written core e)) ∧
    ∀ e : Expr, e.Signed → (∀ n, e.reference = some n → isIdentifier n = true) →
      ∀ printed ∈ e.spellings, ∀ before after : String,
        before.toList.all Text.isBlank = true → after.toList.all Text.isBlank = true →
          parse (before ++ printed ++ after) = some e := by
  refine ⟨?_, ?_, ?_⟩
  · intro text
    refine ⟨Text.trimChars text.toList, Text.isCore_trimChars text.toList, ?_⟩
    intro core hcore
    exact hcore.trimChars_eq.symm
  · intro text core hcore
    simp only [parse_eq_some_iff hcore, written_literal_iff, written_value_iff,
        written_width_iff, implies_true, true_and, Option.eq_none_iff_forall_ne_some,
        ne_eq]
  · intro e hsigned hname printed hprinted before after hbefore hafter
    have hwritten := written_of_mem_spellings hsigned hname hprinted
    exact (parse_eq_some_iff (hwritten.isCore hbefore hafter)).mpr hwritten

/-- A reference between blanks, and a negative integer that is printed after a wide
    blank. -/
theorem parse_depth_width :
    Text.IsCore (" " ++ "DEPTH.width" ++ "\n").toList "DEPTH.width".toList ∧
      parse (" " ++ "DEPTH.width" ++ "\n") = some (.ref "DEPTH" .width) ∧
      Expr.Signed (.literal (-3)) ∧ "-3" ∈ spellings (.literal (-3)) ∧
      parse ("\u2003" ++ "-3" ++ "") = some (.literal (-3)) := by
  obtain ⟨_, hread, hprinted⟩ := parse_exact
  have hwritten : Written "DEPTH.width".toList (.ref "DEPTH" .width) :=
    written_width_iff.mpr ⟨by decide, rfl⟩
  have hcore : Text.IsCore (" " ++ "DEPTH.width" ++ "\n").toList "DEPTH.width".toList :=
    hwritten.isCore (by decide) (by decide)
  have hsigned : Expr.Signed (.literal (-3)) := by decide
  have hmem : "-3" ∈ spellings (.literal (-3)) := by decide
  refine ⟨hcore, ?_, hsigned, hmem, ?_⟩
  · exact ((hread _ _ hcore).2.2.1 "DEPTH").mpr ⟨by decide, rfl⟩
  · exact hprinted _ hsigned (by simp [reference]) "-3" hmem "\u2003" ""
      (by decide) (by decide)

end Expr

end WireSchema
