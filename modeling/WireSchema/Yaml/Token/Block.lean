import WireSchema.Yaml.Cursor

/-!
# Block scalars

Literal and folded block scalars: a header (`|` or `>` with optional indicators) and the
more indented lines below it.  The indentation is given in the header or found at the
first line that is not empty.
-/

namespace WireSchema.Yaml

inductive Chomping where
  | clip
  | strip
  | keep
  deriving DecidableEq, Repr

/-! ### The header -/

structure BlockHeader where
  chomping : Chomping := .clip
  /-- The indentation relative to the enclosing block. -/
  extra : Option Nat := none

def chomping? : Char → Option Chomping
  | '+' => some .keep
  | '-' => some .strip
  | _ => none

/-- The indentation that a digit asks for; zero is refused by the caller. -/
def extra? (c : Char) : Option Nat := if c.isDigit then some (c.toNat - 48) else none

/-- The indicators in either order, the number of characters they take, and no zero. -/
def blockIndicators? : List Char → Option (BlockHeader × Nat)
  | a :: b :: _ =>
    match chomping? a, extra? a with
    | some chomping, _ =>
      match extra? b with
      | some 0 => none
      | some n => some ({ chomping := chomping, extra := some n }, 2)
      | none => some ({ chomping := chomping }, 1)
    | none, some 0 => none
    | none, some n =>
      match chomping? b with
      | some chomping => some ({ chomping := chomping, extra := some n }, 2)
      | none => some ({ extra := some n }, 1)
    | none, none => some ({}, 0)
  | [a] =>
    match chomping? a, extra? a with
    | some chomping, _ => some ({ chomping := chomping }, 1)
    | none, some 0 => none
    | none, some n => some ({ extra := some n }, 1)
    | none, none => some ({}, 0)
  | [] => some ({}, 0)

/-- The header after `|` or `>`, up to the first character of the next line. -/
def blockHeader? (cursor : Cursor) : Option (BlockHeader × Cursor) :=
  match blockIndicators? cursor.rest with
  | none => none
  | some (header, count) =>
    let cursor := (cursor.skip count).skipWhile isSpace
    let cursor := if cursor.peek? == some '#' then cursor.skipLine else cursor
    match cursor.rest with
    | [] => some (header, cursor)
    | c :: _ => if isBreak c then some (header, cursor.skipBreak) else none

/-! ### The lines -/

inductive BlockPhase where
  /-- Before the first line that is not empty; the deepest column so far. -/
  | probing (deepest : Nat)
  /-- In the indentation of a line. -/
  | margin (indent : Nat)
  /-- In the text of a line. -/
  | content (indent : Nat)

structure BlockLines where
  /-- The text, last character first, without the breaks after the last line. -/
  text : List Char := []
  /-- The last line has ended. -/
  ended : Bool := false
  /-- The number of empty lines after it. -/
  empties : Nat := 0
  /-- The last line starts with a blank, so its breaks are not folded. -/
  indented : Bool := false

def BlockLines.beginLine (lines : BlockLines) (folded : Bool) (c : Char) : BlockLines :=
  let joined :=
    if folded && lines.ended && !lines.indented && !isSpace c then
      if lines.empties = 0 then ' ' :: lines.text else lines.text
    else if lines.ended then '\n' :: lines.text else lines.text
  { text := c :: (List.replicate lines.empties '\n' ++ joined), indented := isSpace c }

/-- The lines of a block scalar inside a block at column `parent`.  The indentation must
    not hold a tab. -/
def blockLinesFrom (folded : Bool) (parent : Int) (phase : BlockPhase)
    (lines : BlockLines) (mark : Mark) : List Char → Option (BlockLines × Cursor)
  | [] => some (lines, ⟨mark, []⟩)
  | c :: rest =>
    match phase with
    | .content n =>
      if isBreak c then
        blockLinesFrom folded parent (.margin n) { lines with ended := true }
          (mark.after c) rest
      else
        blockLinesFrom folded parent (.content n) { lines with text := c :: lines.text }
          (mark.after c) rest
    | .margin n =>
      if c == ' ' && decide (mark.column < n) then
        blockLinesFrom folded parent (.margin n) lines (mark.after c) rest
      else if c == '\t' && decide (mark.column < n) then none
      else if isBreak c then
        blockLinesFrom folded parent (.margin n)
          { lines with empties := lines.empties + 1 } (mark.after c) rest
      else if mark.column = n then
        blockLinesFrom folded parent (.content n) (lines.beginLine folded c)
          (mark.after c) rest
      else some (lines, ⟨mark, c :: rest⟩)
    | .probing deepest =>
      if c == ' ' then blockLinesFrom folded parent (.probing deepest) lines
        (mark.after c) rest
      else if c == '\t' then none
      else if isBreak c then
        blockLinesFrom folded parent (.probing (max deepest mark.column))
          { lines with empties := lines.empties + 1 } (mark.after c) rest
      else
        let n := max (max deepest mark.column) (max (parent + 1).toNat 1)
        if mark.column = n then
          blockLinesFrom folded parent (.content n) (lines.beginLine folded c)
            (mark.after c) rest
        else some (lines, ⟨mark, c :: rest⟩)

def BlockLines.toText (lines : BlockLines) (chomping : Chomping) : String :=
  let final := if lines.ended && chomping != .strip then '\n' :: lines.text else lines.text
  let final := if chomping == .keep then List.replicate lines.empties '\n' ++
    final else final
  String.ofList final.reverse

def block? (folded : Bool) (parent : Int) (cursor : Cursor) : Option (String × Cursor) :=
  match blockHeader? cursor with
  | none => none
  | some (header, cursor) =>
    let phase :=
      match header.extra with
      | some n => BlockPhase.margin ((max parent 0).toNat + n)
      | none => BlockPhase.probing 0
    match blockLinesFrom folded parent phase {} cursor.mark cursor.rest with
    | none => none
    | some (lines, cursor) => some (lines.toText header.chomping, cursor)

end WireSchema.Yaml
