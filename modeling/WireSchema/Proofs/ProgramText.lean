import Mathlib.Data.List.Chain
import WireSchema.Proofs.HeaderText
import WireSchema.Proofs.Splitting

/-!
# The program in a header

What a C compiler keeps of a text: lines that end in a backslash are joined with the line
after them, comments are deleted, and lines that are then blank are dropped (`program`).

The first step comes before the second, so a comment that ends in a backslash takes the
next line with it.  `survivors` says which code is left of the lines of a header, and
`codes_survivors_eq_iff` that all of it is left exactly if no line that ends in a
backslash stands directly above code (`Sealed`).
-/

namespace WireSchema

namespace Header

/-! ### Reading a program -/

/-- The text with the lines joined that end in a backslash. -/
def splice : List Char → List Char
  | '\\' :: '\n' :: rest => splice rest
  | c :: rest => c :: splice rest
  | [] => []

def logicalLines (cs : List Char) : List (List Char) := Text.splitAll '\n' (splice cs)

def holdsCode (cs : List Char) : Bool := !cs.all Text.isBlank

/-- What is left of lines without their comments, blank lines left out. -/
def codeLines (lines : List (List Char)) : List (List Char) :=
  (lines.map codeChars).filter holdsCode

def program (text : String) : List String :=
  (codeLines (logicalLines text.toList)).map String.ofList

/-! ### Joining and splitting -/

theorem splice_cons_of_ne {c : Char} {rest : List Char}
    (h : ∀ more, c = '\\' → rest ≠ '\n' :: more) :
    splice (c :: rest) = c :: splice rest := by
  rw [splice]
  rintro more rfl rfl
  exact h more rfl rfl

/-- Lines are joined only at a backslash. -/
theorem splice_append_newLine {cs rest : List Char} (h : cs.getLast? ≠ some '\\') :
    splice (cs ++ '\n' :: rest) = splice cs ++ '\n' :: splice rest := by
  induction cs using splice.induct with
  | case1 cs ih =>
    have hrest : cs.getLast? ≠ some '\\' := by
      intro hlast
      cases cs with
      | nil => cases hlast
      | cons d ds => exact h (by simpa using hlast)
    simpa [splice] using ih hrest
  | case2 c cs hc ih =>
    have hrest : cs.getLast? ≠ some '\\' := by
      intro hlast
      cases cs with
      | nil => cases hlast
      | cons d ds => exact h (by simpa using hlast)
    have hother : ∀ more, c = '\\' → cs ++ '\n' :: rest ≠ '\n' :: more := by
      rintro more rfl hmore
      cases cs with
      | nil => exact h rfl
      | cons d ds =>
        simp only [List.cons_append, List.cons.injEq] at hmore
        exact hc ds rfl (by rw [hmore.1])
    rw [List.cons_append, splice_cons_of_ne hother, ih hrest,
        splice_cons_of_ne fun more hb hmore => hc more hb hmore]
    rfl
  | case3 => rfl

theorem splice_eq_self {cs : List Char} (h : '\n' ∉ cs) : splice cs = cs := by
  induction cs with
  | nil => rfl
  | cons c cs ih =>
    have hne : ∀ more, c = '\\' → cs ≠ '\n' :: more := by
      rintro more _ rfl
      simp at h
    rw [splice_cons_of_ne hne, ih fun hmem => h (List.mem_cons_of_mem c hmem)]

theorem splice_backslash {cs rest : List Char} (h : '\n' ∉ cs) :
    splice (cs ++ '\\' :: '\n' :: rest) = cs ++ splice rest := by
  induction cs with
  | nil => rfl
  | cons c cs ih =>
    have hne : ∀ more, c = '\\' → cs ++ '\\' :: '\n' :: rest ≠ '\n' :: more := by
      intro more _ hmore
      cases cs with
      | nil => simp at hmore
      | cons d ds =>
        simp only [List.cons_append, List.cons.injEq] at hmore
        simp [hmore.1] at h
    rw [List.cons_append, splice_cons_of_ne hne, ih fun hmem =>
        h (List.mem_cons_of_mem c hmem)]
    rfl

theorem codeLines_append (first second : List (List Char)) :
    codeLines (first ++ second) = codeLines first ++ codeLines second := by
  simp [codeLines]

theorem codeLines_cons (line : List Char) (lines : List (List Char)) :
    codeLines (line :: lines) = [codeChars line].filter holdsCode ++ codeLines lines :=
  codeLines_append [line] lines

/-- A line that does not end in a backslash ends a part of the program. -/
theorem codeLines_logicalLines_append {cs rest : List Char}
    (h : cs.getLast? ≠ some '\\') :
    codeLines (logicalLines (cs ++ '\n' :: rest)) = codeLines (logicalLines cs) ++
      codeLines (logicalLines rest) := by
  unfold logicalLines
  rw [splice_append_newLine h, Text.splitAll_append_mark, codeLines_append]

end Header

/-! ### Lines of a header -/

/-- A character that neither begins a comment nor joins or ends lines. -/
def isQuiet (c : Char) : Bool := c != '/' && c != '\\' && c != '\n'

def Quiet (s : String) : Prop := s.toList.all isQuiet = true

instance (s : String) : Decidable (Quiet s) := inferInstanceAs (Decidable (_ = _))

theorem Quiet.ne {s : String} (h : Quiet s) {c : Char} (hc : c ∈ s.toList) :
    c ≠ '/' ∧ c ≠ '\\' ∧ c ≠ '\n' := by
  have hquiet := List.all_eq_true.mp h c hc
  simpa [isQuiet, and_assoc] using hquiet

theorem Quiet.newLine_notMem {s : String} (h : Quiet s) : '\n' ∉ s.toList :=
  fun hmem => (h.ne hmem).2.2 rfl

theorem Quiet.getLast?_ne {s : String} (h : Quiet s) : s.toList.getLast? ≠ some '\\' :=
  fun hlast =>
  (h.ne (List.mem_of_getLast? hlast)).2.1 rfl

theorem quiet_append {s t : String} : Quiet (s ++ t) ↔ Quiet s ∧ Quiet t := by
  simp [Quiet]

theorem quiet_of_isIdentifier {name : String} (h : isIdentifier name = true) :
    Quiet name := by
  apply List.all_eq_true.mpr
  intro c hc
  apply of_isIdentifierRest (motive := fun c => isQuiet c = true) (by decide)
  exact isIdentifierRest_of_isIdentifier h c hc

theorem quiet_toString (n : Nat) : Quiet (toString n) := by
  apply List.all_eq_true.mpr
  intro c hc
  apply of_isIdentifierRest (motive := fun c => isQuiet c = true) (by decide)
  exact Header.isIdentifierRest_of_mem_toString hc

namespace HeaderLine

def runsOn (line : HeaderLine) : Bool := line.text.toList.getLast? == some '\\'

/-- A line whose code has neither a comment mark nor a backslash, and which is a single
    line. -/
structure Clean (line : HeaderLine) : Prop where
  code : Quiet line.code
  comment : ∀ comment, line.comment = some comment → '\n' ∉ comment.toList

variable {line : HeaderLine}

theorem Clean.newLine_notMem_text (h : line.Clean) : '\n' ∉ line.text.toList := by
  have hcode := h.code.newLine_notMem
  unfold text
  cases hcomment : line.comment with
  | none => exact hcode
  | some comment => simp [hcode, h.comment comment hcomment]

/-- Only a comment can end in a backslash. -/
theorem Clean.exists_comment (h : line.Clean) (hruns : line.runsOn = true) :
    ∃ body, line.text.toList = line.code.toList ++ '/' :: '/' :: body ++ ['\\'] := by
  unfold runsOn text at hruns
  unfold text
  cases hcomment : line.comment with
  | none =>
    simp only [hcomment, beq_iff_eq] at hruns
    exact (h.code.getLast?_ne hruns).elim
  | some comment =>
    simp only [hcomment, String.toList_append, beq_iff_eq] at hruns
    rcases List.eq_nil_or_concat comment.toList with hnil | ⟨body, last, hbody⟩
    · simp [hnil] at hruns
    · simp only [hbody, List.concat_eq_append, List.getLast?_append,
          List.getLast?_singleton, Option.some_or, Option.some.injEq] at hruns
      exact ⟨body, by simp [hbody, hruns]⟩

end HeaderLine

namespace Header

def textChars (lines : List HeaderLine) : List Char :=
  lines.flatMap fun line => line.text.toList ++ ['\n']

def codes (lines : List HeaderLine) : List (List Char) :=
  (lines.map fun line => line.code.toList).filter holdsCode

/-- The lines whose code is left, if the first line is joined to a comment before it
    (`hidden`) or not. -/
def survivors : Bool → List HeaderLine → List HeaderLine
  | _, [] => []
  | true, line :: rest => survivors line.runsOn rest
  | false, line :: rest => line :: survivors line.runsOn rest

/-- No line that ends in a backslash stands directly above code. -/
def Sealed (lines : List HeaderLine) : Prop :=
  lines.IsChain fun line next => line.runsOn = true → holdsCode next.code.toList = false

instance (lines : List HeaderLine) : Decidable (Sealed lines) :=
  inferInstanceAs (Decidable (List.IsChain _ _))

/-- The text of a header is that of its lines. -/
theorem text?_eq (p : Package) :
    text? p = (lines? p).map fun lines => String.ofList (textChars lines) := by
  have hjoin : ∀ lines : List HeaderLine, String.join
      (lines.map fun line => line.text ++ "\n") = String.ofList (textChars lines) := by
    intro lines
    apply String.toList_inj.mp
    simp [textChars, List.flatMap_map]
  unfold text?
  cases lines? p with
  | none => rfl
  | some lines => exact congrArg some (hjoin lines)

@[simp] theorem textChars_append (first second : List HeaderLine) :
    textChars (first ++ second) = textChars first ++ textChars second := List.flatMap_append

theorem textChars_cons (line : HeaderLine) (rest : List HeaderLine) :
    textChars (line :: rest) = line.text.toList ++ '\n' :: textChars rest := by
  simp [textChars]

@[simp] theorem codes_append (first second : List HeaderLine) :
    codes (first ++ second) = codes first ++ codes second := by
  simp [codes]

theorem codes_cons (line : HeaderLine) (rest : List HeaderLine) :
    codes (line :: rest) = [line.code.toList].filter holdsCode ++ codes rest :=
  codes_append [line] rest

theorem logicalLines_cons {line : HeaderLine} (h : line.Clean)
    (hruns : line.runsOn = false) (rest : List HeaderLine) :
    logicalLines (textChars (line :: rest)) = line.text.toList ::
      logicalLines (textChars rest) := by
  have hlast : line.text.toList.getLast? ≠ some '\\' := by
    simpa [HeaderLine.runsOn] using hruns
  have hsingle := h.newLine_notMem_text
  unfold logicalLines
  rw [textChars_cons, splice_append_newLine hlast, splice_eq_self hsingle,
      Text.splitAll_append_mark, Text.splitAll_of_notMem hsingle]
  rfl

/-- A comment that ends in a backslash takes in the first line of the rest. -/
theorem logicalLines_cons_of_runsOn {line : HeaderLine} (h : line.Clean)
    (hruns : line.runsOn = true) (rest : List HeaderLine) :
    ∃ body, logicalLines (textChars (line :: rest)) =
      (logicalLines (textChars rest)).modifyHead
        (line.code.toList ++ '/' :: '/' :: body ++ ·) := by
  obtain ⟨body, hbody⟩ := h.exists_comment hruns
  have hsingle := h.newLine_notMem_text
  have hinit : '\n' ∉ line.code.toList ++ '/' :: '/' :: body := by
    intro hmem
    rw [hbody] at hsingle
    exact hsingle (List.mem_append_left _ hmem)
  refine ⟨body, ?_⟩
  unfold logicalLines
  rw [textChars_cons, hbody, List.append_assoc, List.singleton_append,
      splice_backslash hinit, Text.splitAll_append_of_notMem hinit]

/-- The program of lines is the code of those that survive. -/
theorem codeLines_logicalLines {lines : List HeaderLine} (h : ∀ line ∈ lines, line.Clean) :
    codeLines (logicalLines (textChars lines)) = codes (survivors false lines) ∧
      codeLines (logicalLines (textChars lines)).tail = codes (survivors true lines) := by
  -- the second part is the rest of a text whose first line was joined to a comment
  induction lines with
  | nil => exact ⟨rfl, rfl⟩
  | cons line rest ih =>
    obtain ⟨ihfirst, ihtail⟩ := ih fun other hother =>
      h other (List.mem_cons_of_mem line hother)
    have hline := h line List.mem_cons_self
    have hmark : ∀ c ∈ line.code.toList, c ≠ '/' := fun c hc => (hline.code.ne hc).1
    cases hruns : line.runsOn with
    | false =>
      rw [logicalLines_cons hline hruns, List.tail_cons, codeLines_cons,
          codeChars_text hmark]
      simp only [survivors, hruns, codes_cons, ihfirst, and_self]
    | true =>
      obtain ⟨body, hbody⟩ := logicalLines_cons_of_runsOn hline hruns rest
      obtain ⟨first, more, hmore⟩ :=
        List.exists_cons_of_ne_nil (Text.splitAll_ne_nil '\n' (splice (textChars rest)))
      change logicalLines (textChars rest) = first :: more at hmore
      rw [hmore, List.tail_cons] at ihtail
      rw [hbody, hmore, List.modifyHead_cons, List.tail_cons, codeLines_cons,
          List.append_assoc, List.cons_append, List.cons_append, codeChars_comment hmark]
      simp only [survivors, hruns, codes_cons, ihtail, and_self]

theorem length_codes_survivors_le (hidden : Bool) (lines : List HeaderLine) :
    (codes (survivors hidden lines)).length ≤ (codes lines).length := by
  induction lines generalizing hidden with
  | nil => cases hidden <;> exact Nat.le_refl _
  | cons line rest ih =>
    have hrest := ih line.runsOn
    cases hidden with
    | false => simpa [survivors, codes_cons] using hrest
    | true =>
      rw [survivors, codes_cons, List.length_append]
      omega

/-- All code is left exactly if no line that ends in a backslash stands directly above
    code, and the first line is not hidden or has none. -/
theorem codes_survivors_eq_iff (hidden : Bool) (lines : List HeaderLine) :
    codes (survivors hidden lines) = codes lines ↔
      (∀ line ∈ lines.head?, hidden = true → holdsCode line.code.toList = false) ∧
        Sealed lines := by
  induction lines generalizing hidden with
  | nil => cases hidden <;> simp [survivors, Sealed]
  | cons line rest ih =>
    have hsealed : Sealed (line :: rest) ↔ codes (survivors line.runsOn rest) =
        codes rest := by
      rw [ih, Sealed, List.isChain_cons]
      rfl
    rw [hsealed]
    cases hidden with
    | false => simp [survivors, codes_cons]
    | true =>
      rw [survivors, codes_cons]
      by_cases hcode : holdsCode line.code.toList = true
      · -- the code of this line is lost, and nothing can make up for it
        have hlength := length_codes_survivors_le line.runsOn rest
        have hne : codes (survivors line.runsOn rest) ≠ line.code.toList :: codes rest := by
          intro heq
          rw [heq, List.length_cons] at hlength
          omega
        simp [hne, hcode]
      · simp [hcode]

end Header

end WireSchema
