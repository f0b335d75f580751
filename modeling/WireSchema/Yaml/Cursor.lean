/-!
# Positions in a document

A cursor is a place in the text of a document: the characters still to come and the
position reached.  The text ends at its first NUL, and a carriage return with a line feed
counts as one line feed.
-/

namespace WireSchema.Yaml

/-! ### Classes of characters -/

/-- A line break.  Only a line feed starts a new line in the position; a lone carriage
    return does not. -/
def isBreak (c : Char) : Bool := c == '\n' || c == '\r'

def isSpace (c : Char) : Bool := c == ' ' || c == '\t'

def isFlowMark (c : Char) : Bool :=
  c == ',' || c == '[' || c == ']' || c == '\x7b' || c == '\x7d'

/-- The characters of anchors, aliases, directive names and tag handles. -/
def isWord (c : Char) : Bool := c.isAlphanum || c == '_' || c == '-'

/-- The text is over, or goes on with a blank or a break. -/
def atEdge : List Char → Bool
  | [] => true
  | c :: _ => isSpace c || isBreak c

def atFlowMark : List Char → Bool
  | [] => false
  | c :: _ => isFlowMark c

/-- The text goes on with `---` or `...` as a word of its own. -/
def atDocumentMarker : List Char → Bool
  | '-' :: '-' :: '-' :: rest => atEdge rest
  | '.' :: '.' :: '.' :: rest => atEdge rest
  | _ => false

/-! ### Positions -/

/-- A position: the number of characters before it, the line, and the column. -/
structure Mark where
  index : Nat := 0
  line : Nat := 0
  column : Nat := 0
  deriving DecidableEq, Repr

def Mark.after (m : Mark) (c : Char) : Mark :=
  if c = '\n' then ⟨m.index + 1, m.line + 1, 0⟩ else ⟨m.index + 1, m.line, m.column + 1⟩

def Mark.afterAll (m : Mark) (cs : List Char) : Mark := cs.foldl Mark.after m

structure Cursor where
  mark : Mark
  rest : List Char
  deriving Repr

namespace Cursor

def peek? (c : Cursor) : Option Char := c.rest.head?

def skip (c : Cursor) (count : Nat) : Cursor :=
  ⟨c.mark.afterAll (c.rest.take count), c.rest.drop count⟩

def takeWhile (c : Cursor) (test : Char → Bool) : List Char × Cursor :=
  let taken := c.rest.takeWhile test
  (taken, c.skip taken.length)

def skipWhile (c : Cursor) (test : Char → Bool) : Cursor := (c.takeWhile test).2

def skipLine (c : Cursor) : Cursor := c.skipWhile fun ch => !isBreak ch

def skipBreak (c : Cursor) : Cursor :=
  match c.rest with
  | ch :: _ => if isBreak ch then c.skip 1 else c
  | [] => c

end Cursor

/-! ### The text of a document -/

/-- Every carriage return that stands right before a line feed is dropped. -/
def joinBreaks : List Char → List Char
  | [] => []
  | '\r' :: '\n' :: rest => '\n' :: joinBreaks rest
  | c :: rest => c :: joinBreaks rest

def Cursor.start (text : List Char) : Cursor :=
  ⟨{}, joinBreaks (text.takeWhile (· != '\x00'))⟩

end WireSchema.Yaml
