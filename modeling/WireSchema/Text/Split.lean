/-!
# Splitting texts

The characters with the Unicode property White_Space, trimming by them, and the lines and
words of a text; the parts of a text between the places of a character.  Everything is
defined on lists of characters; the functions on `String` only convert.
-/

namespace WireSchema.Text

def inRanges (ranges : List (Nat × Nat)) (c : Char) : Bool :=
  ranges.any fun r => decide (r.1 ≤ c.toNat) && decide (c.toNat ≤ r.2)

/-! ### White space -/

/-- The code points with the Unicode property White_Space. -/
def blankRanges : List (Nat × Nat) :=
  [(0x09, 0x0D), (0x20, 0x20), (0x85, 0x85), (0xA0, 0xA0), (0x1680, 0x1680),
   (0x2000, 0x200A), (0x2028, 0x2029), (0x202F, 0x202F), (0x205F, 0x205F),
   (0x3000, 0x3000)]

def isBlank (c : Char) : Bool := inRanges blankRanges c

def trimEndChars (cs : List Char) : List Char := (cs.reverse.dropWhile isBlank).reverse

def trimChars (cs : List Char) : List Char := trimEndChars (cs.dropWhile isBlank)

def trimEnd (s : String) : String := String.ofList (trimEndChars s.toList)

def trim (s : String) : String := String.ofList (trimChars s.toList)

/-! ### Lines -/

/-- A line read so far, last character first, without the carriage return it ends with. -/
def dropReturn : List Char → List Char
  | '\r' :: line => line
  | line => line

/-- The lines of the text, after `line`, the characters of the current line, last one
    first.  A line feed ends a line, together with one carriage return right before it; an
    empty rest is no line. -/
def linesFrom (line : List Char) : List Char → List (List Char)
  | [] => if line.isEmpty then [] else [line.reverse]
  | '\n' :: rest => (dropReturn line).reverse :: linesFrom [] rest
  | c :: rest => linesFrom (c :: line) rest

def lineChars (cs : List Char) : List (List Char) := linesFrom [] cs

def lines (s : String) : List String := (lineChars s.toList).map String.ofList

/-! ### Words -/

/-- The words of the text, after `word`, the characters of the current word, last one
    first. -/
def wordsFrom (word : List Char) : List Char → List (List Char)
  | [] => if word.isEmpty then [] else [word.reverse]
  | c :: rest =>
    if isBlank c then
      if word.isEmpty then wordsFrom [] rest else word.reverse :: wordsFrom [] rest
    else wordsFrom (c :: word) rest

def wordChars (cs : List Char) : List (List Char) := wordsFrom [] cs

/-! ### Splitting at a character -/

/-- The text before and after the first `mark`, if there is one. -/
def splitFirst? (mark : Char) : List Char → Option (List Char × List Char)
  | [] => none
  | c :: rest =>
    if c = mark then some ([], rest)
    else
      match splitFirst? mark rest with
      | some (before, after) => some (c :: before, after)
      | none => none

def splitLast? {α : Type} [DecidableEq α] (mark : α) : List α → Option (List α × List α)
  | [] => none
  | c :: rest =>
    match splitLast? mark rest with
    | some (before, after) => some (c :: before, after)
    | none => if c = mark then some ([], rest) else none

/-- The parts between the marks; there is one more than there are marks. -/
def splitAll (mark : Char) : List Char → List (List Char)
  | [] => [[]]
  | c :: rest =>
    if c = mark then [] :: splitAll mark rest
    else
      match splitAll mark rest with
      | first :: more => (c :: first) :: more
      | [] => [[c]]

def splitText (mark : Char) (s : String) : List String :=
  (splitAll mark s.toList).map String.ofList

end WireSchema.Text
