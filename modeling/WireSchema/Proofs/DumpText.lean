import Mathlib.Data.List.Basic
import WireSchema.Emit.Dump

/-!
# A dump loses nothing

Two packages with the same dump are the same package.  The text of a tree is not cut out
of a longer text by its length or by looking for brackets, which may also stand in quoted
texts; so what is shown is stronger, and goes through the recursion: a text that begins
with the text of a tree determines the tree and what comes after it.

For a quoted text this needs that no character is written like the beginning of another
one, and none like the closing quote.  `unescape` reads one character back, which shows
both.  For a number it needs that no digit comes next: after a value there is always a
comma or a line feed.
-/

namespace WireSchema

namespace Json

/-! ### Quoted texts -/

def hexValue (c : Char) : Nat := if c.isDigit then c.toNat - 48 else c.toNat - 87

/-- The first character that a quoted text was written from, and the text after it. -/
def unescape : List Char → Option (Char × List Char)
  | '\\' :: '"' :: rest => some ('"', rest)
  | '\\' :: '\\' :: rest => some ('\\', rest)
  | '\\' :: 'b' :: rest => some ('\x08', rest)
  | '\\' :: 'f' :: rest => some ('\x0c', rest)
  | '\\' :: 'n' :: rest => some ('\n', rest)
  | '\\' :: 'r' :: rest => some ('\r', rest)
  | '\\' :: 't' :: rest => some ('\t', rest)
  | '\\' :: 'u' :: '0' :: '0' :: high :: low :: rest =>
    some (Char.ofNat (16 * hexValue high + hexValue low), rest)
  | '"' :: _ => none
  | c :: rest => some (c, rest)
  | [] => none

theorem hexValue_hexDigit (n : Nat) : hexValue (hexDigit n) = n % 16 := by
  have hall : ∀ d < 16, hexValue (Nat.digitChar d) = d := by decide
  exact hall (n % 16) (Nat.mod_lt n (by decide))

/-- A character inside a quoted text can be read back. -/
theorem unescape_escapeChar (c : Char) (rest : List Char) :
    unescape (escapeChar c ++ rest) = some (c, rest) := by
  unfold escapeChar
  simp only [beq_iff_eq]
  split_ifs with hquote hbackslash hb hf hn hr ht hcontrol
  · simp [hquote, unescape]
  · simp [hbackslash, unescape]
  · simp [hb, unescape]
  · simp [hf, unescape]
  · simp [hn, unescape]
  · simp [hr, unescape]
  · simp [ht, unescape]
  · have hcode : 16 * (c.toNat / 16 % 16) + c.toNat % 16 = c.toNat := by omega
    simp only [List.cons_append, List.nil_append, unescape, hexValue_hexDigit, hcode,
        Char.ofNat_toNat]
  · -- neither a backslash nor a quote: the last rule but one
    rw [List.singleton_append, unescape.eq_def]
    split <;> simp_all

/-- A quoted text ends where it was made to end: at the first quote that is not
    escaped. -/
theorem escaped_append_inj {s t rest more : List Char}
    (h : s.flatMap escapeChar ++ '"' :: rest = t.flatMap escapeChar ++ '"' :: more) :
    s = t ∧ rest = more := by
  have hclosing : ∀ cs, unescape ('"' :: cs) = none := fun _ => rfl
  induction s generalizing t with
  | nil =>
    cases t with
    | nil => simpa using h
    | cons d t =>
      have hread := congrArg unescape h
      simp [unescape_escapeChar, hclosing] at hread
  | cons c s ih =>
    cases t with
    | nil =>
      have hread := congrArg unescape h
      simp [unescape_escapeChar, hclosing] at hread
    | cons d t =>
      have hread := congrArg unescape h
      simp only [List.flatMap_cons, List.append_assoc, unescape_escapeChar,
          Option.some.injEq, Prod.mk.injEq] at hread
      obtain ⟨rfl, htail⟩ := hread
      obtain ⟨rfl, hrest⟩ := ih htail
      exact ⟨rfl, hrest⟩

theorem quote_append_inj {s t : String} {rest more : List Char}
    (h : quote s ++ rest = quote t ++ more) : s = t ∧ rest = more := by
  simp only [quote, List.cons_append, List.append_assoc, List.nil_append, List.cons.injEq,
      true_and] at h
  obtain ⟨hchars, hrest⟩ := escaped_append_inj h
  exact ⟨String.toList_inj.mp hchars, hrest⟩

/-! ### Numbers -/

/-- What comes after a value: no digit that could belong to it. -/
def Ends (rest : List Char) : Prop := ∃ c more, rest = c :: more ∧ c.isDigit = false

theorem digits_append {n : Nat} {rest : List Char} (h : Ends rest) :
    ((toString n).toList ++ rest).takeWhile Char.isDigit = Nat.toDigits 10 n := by
  obtain ⟨c, more, rfl, hc⟩ := h
  have hdigits : (toString n).toList = Nat.toDigits 10 n := by simp [Nat.toString_eq_repr]
  rw [hdigits, List.takeWhile_append_of_pos fun d hd => Nat.isDigit_of_mem_toDigits
      (by decide) (by decide) hd]
  simp [hc]

theorem number_append_inj {m n : Nat} {rest more : List Char} (hrest : Ends rest)
    (hmore : Ends more) (h : (toString m).toList ++ rest = (toString n).toList ++ more) :
    m = n ∧ rest = more := by
  have hdigits := congrArg (List.takeWhile Char.isDigit) h
  rw [digits_append hrest, digits_append hmore] at hdigits
  have hvalue := congrArg (Nat.ofDigitChars 10 · 0) hdigits
  simp only [Nat.ofDigitChars_toDigits (b := 10) (by decide) (by decide)] at hvalue
  subst hvalue
  exact ⟨rfl, List.append_cancel_left h⟩

/-! ### Trees -/

/-- The mark that the text of a tree begins with; a number has none. -/
def mark? : Json → Option Char
  | .number _ => none
  | .text _ => some '"'
  | .list _ => some '['
  | .object _ => some '\x7b'

def markOf? (cs : List Char) : Option Char := cs.head?.filter fun c => !c.isDigit

theorem markOf?_chars (level : Nat) (tree : Json) (rest : List Char) :
    markOf? (chars level tree ++ rest) = tree.mark? := by
  cases tree with
  | number n =>
    obtain ⟨d, ds, hd⟩ := List.exists_cons_of_ne_nil
      (Nat.toDigits_ne_nil (b := 10) (n := n))
    have hdigit : d.isDigit = true :=
      Nat.isDigit_of_mem_toDigits (b := 10) (n := n) (by decide) (by decide)
      (by rw [hd]; exact List.mem_cons_self)
    simp [chars, hd, markOf?, hdigit, mark?]
  | text s => rfl
  | list items => cases items <;> rfl
  | object entries => cases entries <;> rfl

/-- Texts that begin alike begin with trees of the same form. -/
theorem mark?_eq {level : Nat} {a b : Json} {rest more : List Char}
    (h : chars level a ++ rest = chars level b ++ more) : a.mark? = b.mark? := by
  rw [← markOf?_chars level a rest, h, markOf?_chars]

theorem ends_newLine (level : Nat) (rest : List Char) : Ends (newLine level ++ rest) :=
  ⟨'\n', _, rfl, rfl⟩

theorem ends_itemChars (level : Nat) (items : List Json) (rest : List Char) :
    Ends (itemChars level items ++ (newLine level ++ rest)) := by
  cases items with
  | nil => exact ends_newLine level rest
  | cons item items => exact ⟨',', _, rfl, rfl⟩

theorem ends_entryChars (level : Nat) (entries : List (String × Json)) (rest : List Char) :
    Ends (entryChars level entries ++ (newLine level ++ rest)) := by
  cases entries with
  | nil => exact ends_newLine level rest
  | cons entry entries => exact ⟨',', _, rfl, rfl⟩

mutual

/-- A tree can be told from the text it is written as, and so can what follows it. -/
theorem chars_append_inj (level : Nat) :
    (a b : Json) → {rest more : List Char} → Ends rest → Ends more →
    chars level a ++ rest = chars level b ++ more → a = b ∧ rest = more
  | .number m, b, rest, more, hrest, hmore, h => by
    cases b with
    | number n =>
      obtain ⟨rfl, htail⟩ := number_append_inj hrest hmore h
      exact ⟨rfl, htail⟩
    | _ => cases mark?_eq h
  | .text s, b, rest, more, _, _, h => by
    cases b with
    | text u =>
      obtain ⟨rfl, htail⟩ := quote_append_inj h
      exact ⟨rfl, htail⟩
    | _ => cases mark?_eq h
  | .list [], b, rest, more, _, _, h => by
    cases b with
    | list ys =>
      cases ys with
      | nil => simpa [chars] using h
      | cons y ys => simp [chars, newLine] at h
    | _ => cases mark?_eq h
  | .list (x :: xs), b, rest, more, _, _, h => by
    cases b with
    | list ys =>
      cases ys with
      | nil => simp [chars, newLine] at h
      | cons y ys =>
        -- with a comma in the place of the bracket, these are the items after a first one
        have hitems : itemChars level (x :: xs) ++ (newLine level ++ ']' :: rest) =
            itemChars level (y :: ys) ++ (newLine level ++ ']' :: more) := by
          simpa [chars, itemChars] using h
        obtain ⟨hxs, hrest⟩ := itemChars_append_inj level (x :: xs) (y :: ys) hitems
        exact ⟨by rw [hxs], hrest⟩
    | _ => cases mark?_eq h
  | .object [], b, rest, more, _, _, h => by
    cases b with
    | object ys =>
      cases ys with
      | nil => simpa [chars] using h
      | cons y ys => simp [chars, newLine] at h
    | _ => cases mark?_eq h
  | .object ((key, x) :: xs), b, rest, more, _, _, h => by
    cases b with
    | object ys =>
      cases ys with
      | nil => simp [chars, newLine] at h
      | cons y ys =>
        have hentries : entryChars level ((key, x) :: xs) ++
            (newLine level ++ '\x7d' :: rest) = entryChars level (y :: ys) ++
            (newLine level ++ '\x7d' :: more) := by
          simpa [chars, entryChars] using h
        obtain ⟨hxs, hrest⟩ := entryChars_append_inj level ((key, x) :: xs)
          (y :: ys) hentries
        exact ⟨by rw [hxs], hrest⟩
    | _ => cases mark?_eq h

theorem itemChars_append_inj (level : Nat) :
    (xs ys : List Json) → {rest more : List Char} →
    itemChars level xs ++ (newLine level ++ ']' :: rest) = itemChars level ys ++
      (newLine level ++ ']' :: more) →
      xs = ys ∧ rest = more
  | [], [], _, _, h => by simpa [itemChars] using h
  | [], _ :: _, _, _, h => by simp [itemChars, newLine] at h
  | _ :: _, [], _, _, h => by simp [itemChars, newLine] at h
  | x :: xs, y :: ys, _, _, h => by
    simp only [itemChars, List.cons_append, List.append_assoc, List.cons.injEq, true_and,
      List.append_cancel_left_eq] at h
    obtain ⟨rfl, htail⟩ := chars_append_inj (level + 1) x y (ends_itemChars level xs _)
      (ends_itemChars level ys _) h
    obtain ⟨rfl, hrest⟩ := itemChars_append_inj level xs ys htail
    exact ⟨rfl, hrest⟩

theorem entryChars_append_inj (level : Nat) :
    (xs ys : List (String × Json)) → {rest more : List Char} →
    entryChars level xs ++ (newLine level ++ '\x7d' :: rest) = entryChars level ys ++
      (newLine level ++ '\x7d' :: more) →
      xs = ys ∧ rest = more
  | [], [], _, _, h => by simpa [entryChars] using h
  | [], _ :: _, _, _, h => by simp [entryChars, newLine] at h
  | _ :: _, [], _, _, h => by simp [entryChars, newLine] at h
  | (key, x) :: xs, (key', y) :: ys, _, _, h => by
    simp only [entryChars, List.cons_append, List.append_assoc, List.cons.injEq, true_and,
      List.append_cancel_left_eq] at h
    obtain ⟨rfl, hvalue⟩ := quote_append_inj h
    simp only [List.nil_append, List.cons.injEq, true_and] at hvalue
    obtain ⟨rfl, htail⟩ := chars_append_inj (level + 1) x y (ends_entryChars level xs _)
      (ends_entryChars level ys _) hvalue
    obtain ⟨rfl, hrest⟩ := entryChars_append_inj level xs ys htail
    exact ⟨rfl, hrest⟩

end

theorem render_injective : Function.Injective render := by
  intro a b h
  have hchars : chars 0 a ++ ['\n'] = chars 0 b ++ ['\n'] := String.ofList_inj.mp h
  have hends : Ends ['\n'] := ⟨'\n', [], rfl, rfl⟩
  exact (chars_append_inj 0 a b hends hends hchars).1

end Json

/-! ### Packages -/

namespace Dump

/-- An entry that is left out cannot be taken for the one after it, which has another
    key. -/
theorem optional_append_inj {key : String} {a b : Option String}
    {rest more : List (String × Json)} (hrest : ∀ entry ∈ rest, entry.1 ≠ key)
    (hmore : ∀ entry ∈ more, entry.1 ≠ key)
    (h : optional key a ++ rest = optional key b ++ more) : a = b ∧ rest = more := by
  cases a with
  | none =>
    cases b with
    | none => exact ⟨rfl, h⟩
    | some v =>
      have hmem : (key, Json.text v) ∈ rest := by
        rw [show rest = _ from h]
        exact List.mem_cons_self
      exact (hrest _ hmem rfl).elim
  | some u =>
    cases b with
    | none =>
      have hmem : (key, Json.text u) ∈ more := by
        rw [show more = _ from h.symm]
        exact List.mem_cons_self
      exact (hmore _ hmem rfl).elim
    | some v =>
      simp only [optional, List.cons_append, List.nil_append, List.cons.injEq,
          Prod.mk.injEq, Json.text.injEq, true_and] at h
      exact ⟨congrArg some h.1, h.2⟩

theorem docs_injective : Function.Injective docs := by
  rintro ⟨summary, verbose⟩ ⟨summary', verbose'⟩ h
  simp only [docs, Prod.mk.injEq, Json.object.injEq, List.cons.injEq, Json.text.injEq,
      true_and] at h
  obtain ⟨rfl, hverbose⟩ := h
  rw [← List.append_nil (optional "verbose" verbose),
      ← List.append_nil (optional "verbose" verbose')] at hverbose
  obtain ⟨rfl, _⟩ := optional_append_inj (by simp) (by simp) hverbose
  rfl

theorem enumerator_injective : Function.Injective enumerator := by
  rintro ⟨name, value, d⟩ ⟨name', value', e⟩ h
  simp only [enumerator, Json.object.injEq, List.cons.injEq, Prod.mk.injEq,
      Json.text.injEq, Json.number.injEq, true_and, and_true] at h
  obtain ⟨rfl, rfl, hdocs⟩ := h
  rw [docs_injective hdocs]

theorem fieldType_injective : Function.Injective fieldType := by
  intro a b h
  cases a <;> cases b <;> simp_all [fieldType]

theorem field_injective : Function.Injective field := by
  rintro ⟨name, type, width, d⟩ ⟨name', type', width', e⟩ h
  simp only [field, Json.object.injEq, List.cons.injEq, Prod.mk.injEq, Json.text.injEq,
      Json.number.injEq, true_and, and_true] at h
  obtain ⟨rfl, htype, rfl, hdocs⟩ := h
  rw [fieldType_injective htype, docs_injective hdocs]

/-- No two items are dumped as the same tree. -/
theorem item_injective : Function.Injective item := by
  intro a b h
  -- the entry `kind` comes first and separates the four kinds
  cases a with
  | parameter p =>
    cases b with
    | parameter q =>
      obtain ⟨name, value, width, countWidth, widthOne, d⟩ := p
      obtain ⟨name', value', width', countWidth', widthOne', e⟩ := q
      simp only [item, Json.object.injEq, List.cons.injEq, Prod.mk.injEq, Json.text.injEq,
          Json.number.injEq, true_and, and_true] at h
      obtain ⟨rfl, rfl, rfl, rfl, rfl, hdocs⟩ := h
      rw [docs_injective hdocs]
    | _ => simp [item] at h
  | enum p =>
    cases b with
    | enum q =>
      obtain ⟨name, width, values, d⟩ := p
      obtain ⟨name', width', values', e⟩ := q
      simp only [item, Json.object.injEq, List.cons.injEq, Prod.mk.injEq, Json.text.injEq,
          Json.number.injEq, Json.list.injEq, true_and, and_true] at h
      obtain ⟨rfl, rfl, hvalues, hdocs⟩ := h
      rw [List.map_injective_iff.mpr enumerator_injective hvalues, docs_injective hdocs]
    | _ => simp [item] at h
  | typedef p =>
    cases b with
    | typedef q =>
      obtain ⟨name, width, base, d⟩ := p
      obtain ⟨name', width', base', e⟩ := q
      simp only [item, List.cons_append, List.nil_append, Json.object.injEq,
          List.cons.injEq, Prod.mk.injEq, Json.text.injEq, Json.number.injEq, true_and]
        at h
      obtain ⟨rfl, rfl, hrest⟩ := h
      obtain ⟨rfl, hdocs⟩ := optional_append_inj (by simp [docs]) (by simp [docs]) hrest
      rw [docs_injective (List.cons.inj hdocs).1]
    | _ => simp [item] at h
  | struct p =>
    cases b with
    | struct q =>
      obtain ⟨name, width, fields, d⟩ := p
      obtain ⟨name', width', fields', e⟩ := q
      simp only [item, Json.object.injEq, List.cons.injEq, Prod.mk.injEq, Json.text.injEq,
          Json.number.injEq, Json.list.injEq, true_and, and_true] at h
      obtain ⟨rfl, rfl, hfields, hdocs⟩ := h
      rw [List.map_injective_iff.mpr field_injective hfields, docs_injective hdocs]
    | _ => simp [item] at h

theorem keys_optional {key : String} {value : Option String} :
    ∀ entry ∈ optional key value, entry.1 = key := by
  cases value <;> simp [optional]

/-- No two packages are dumped as the same tree. -/
theorem package_injective : Function.Injective package := by
  rintro ⟨name, source, summary, verbose, items⟩
    ⟨name', source', summary', verbose', items'⟩ h
  simp only [package, List.cons_append, List.nil_append, List.append_assoc,
      Json.object.injEq, List.cons.injEq, Prod.mk.injEq, Json.text.injEq, true_and] at h
  obtain ⟨rfl, rfl, hrest⟩ := h
  have hkeys : ∀ (value : Option String) (trees : List Json), ∀ entry ∈
      optional "doc_verbose" value ++ [("items", Json.list trees)], entry.1 ≠
      "doc_summary" := by
    intro value trees entry hentry
    rcases List.mem_append.mp hentry with hentry | hentry
    · rw [keys_optional entry hentry]
      decide
    · simp [List.mem_singleton.mp hentry]
  obtain ⟨rfl, hlast⟩ := optional_append_inj (hkeys verbose _) (hkeys verbose' _) hrest
  obtain ⟨rfl, hitems⟩ := optional_append_inj (by simp) (by simp) hlast
  simp only [List.cons.injEq, Prod.mk.injEq, Json.list.injEq, true_and, and_true] at hitems
  rw [List.map_injective_iff.mpr item_injective hitems]

/-- **A dump determines its package.**  Two packages with any texts, numbers, items and
    documentation have the same dump only if they are equal. -/
theorem text_eq_iff (p q : Package) : text p = text q ↔ p = q := by
  constructor
  · intro h
    have htrees : package p = package q := Json.render_injective h
    exact package_injective htrees
  · rintro rfl
    rfl

end Dump

end WireSchema
