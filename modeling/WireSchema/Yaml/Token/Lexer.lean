import WireSchema.Yaml.Token.Block
import WireSchema.Yaml.Token.Flow
import WireSchema.Yaml.Token

/-!
# From text to tokens

The lexer keeps a stack of block columns and, for every open flow collection and for the
block around them, the one place where a mapping key may have started.  When a `:` shows
that it had, the key mark is put in at that place.  `tokens?` refuses a text that is not
well formed.
-/

namespace WireSchema.Yaml

structure KeyPlace where
  /-- The number of tokens before it. -/
  position : Nat
  mark : Mark
  /-- Nothing but a key may stand here. -/
  required : Bool

structure Lexer where
  cursor : Cursor
  tokens : Array Token := #[]
  /-- The column of the innermost block, -1 outside every block. -/
  indent : Int := -1
  /-- The columns of the blocks around it. -/
  indents : List Int := []
  /-- The key place of the innermost flow collection, or of the block. -/
  key : Option KeyPlace := none
  /-- The key places around it, one for every open flow collection. -/
  outer : List (Option KeyPlace) := []
  /-- A key may start at the next token. -/
  keyAllowed : Bool := true
  /-- The end of the last quoted scalar, where a `:` needs no blank after it. -/
  adjacent : Option Nat := none

namespace Lexer

def inFlow (lx : Lexer) : Bool := !lx.outer.isEmpty

def push (lx : Lexer) (t : Token) : Lexer := { lx with tokens := lx.tokens.push t }

def moveTo (lx : Lexer) (cursor : Cursor) : Lexer := { lx with cursor := cursor }

def take (lx : Lexer) (count : Nat) (t : Token) : Lexer :=
  (lx.push t).moveTo (lx.cursor.skip count)

/-! ### Key places -/

/-- A key ends on its line and within 1024 characters. -/
def isStale (now : Mark) (place : KeyPlace) : Bool :=
  decide (place.mark.line < now.line) || decide (place.mark.index + 1024 < now.index)

/-- A place that is not stale; a required key must not become stale. -/
def fresh? (now : Mark) : Option KeyPlace → Option (Option KeyPlace)
  | none => some none
  | some place =>
    if isStale now place then if place.required then none else some none
    else some (some place)

def dropStale (lx : Lexer) : Option Lexer := do
  let key ← fresh? lx.cursor.mark lx.key
  let outer ← lx.outer.mapM (fresh? lx.cursor.mark)
  return { lx with key := key, outer := outer }

/-- Forget the innermost place; a required key must not be forgotten. -/
def dropKey (lx : Lexer) : Option Lexer :=
  match lx.key with
  | some place => if place.required then none else some { lx with key := none }
  | none => some lx

def saveKey (lx : Lexer) : Option Lexer :=
  if lx.keyAllowed then do
    let dropped ← lx.dropKey
    return { dropped with
      key := some ⟨lx.tokens.size, lx.cursor.mark, lx.inFlow && lx.indent ==
          (lx.cursor.mark.column : Int)⟩ }
  else some lx

/-! ### Blocks -/

/-- Open a block at a column right of the innermost one, with its start token at
    `position`. -/
def openBlock (lx : Lexer) (column : Nat) (position : Nat) (t : Token) : Lexer :=
  if !lx.inFlow && decide (lx.indent < (column : Int)) then
    { lx with
      indents := lx.indent :: lx.indents
      indent := column
      tokens := lx.tokens.insertIdxIfInBounds position t }
  else lx

/-- Close the blocks right of a column, given the columns around them. -/
def closeFrom (column : Int) (tokens : Array Token) (indent : Int) :
    List Int → Array Token × Int × List Int
  | [] => (tokens, indent, [])
  | parent :: more =>
    if column < indent then closeFrom column (tokens.push .blockEnd) parent more
    else (tokens, indent, parent :: more)

def closeBlocks (lx : Lexer) (column : Int) : Lexer :=
  if lx.inFlow then lx
  else
    let (tokens, indent, indents) := closeFrom column lx.tokens lx.indent lx.indents
    { lx with tokens := tokens, indent := indent, indents := indents }

/-! ### Between tokens -/

/-- Skip blanks, breaks and comments.  In block context a break allows a key again, and a
    tab is skipped only where no key may start. -/
def skipSpaceFrom (flow : Bool) (comment : Bool) (allowed : Bool) (mark : Mark) :
    List Char → Bool × Cursor
  | [] => (allowed, ⟨mark, []⟩)
  | c :: rest =>
    if isBreak c then skipSpaceFrom flow false (allowed || !flow) (mark.after c) rest
    else if comment || c == ' ' || (c == '\t' && (flow || !allowed)) then
      skipSpaceFrom flow comment allowed (mark.after c) rest
    else if c == '#' then skipSpaceFrom flow true allowed (mark.after c) rest
    else (allowed, ⟨mark, c :: rest⟩)

/-- Go to the next token and close the blocks that end before it. -/
def settle (lx : Lexer) : Option Lexer := do
  let (allowed, cursor) := skipSpaceFrom lx.inFlow false lx.keyAllowed lx.cursor.mark
    lx.cursor.rest
  let settled ← { lx with keyAllowed := allowed, cursor := cursor }.dropStale
  return settled.closeBlocks cursor.mark.column

/-! ### Tokens -/

/-- A token that ends every block: a document mark or a directive. -/
def documentToken (lx : Lexer) (t : Token) (cursor : Cursor) : Option Lexer := do
  let dropped ← (lx.closeBlocks (-1)).dropKey
  return { dropped.push t with keyAllowed := false, cursor := cursor }

def flowStart (lx : Lexer) (t : Token) : Option Lexer := do
  let saved ← lx.saveKey
  return { saved.take 1 t with
    outer := saved.key :: saved.outer, key := none, keyAllowed := true }

def flowEnd (lx : Lexer) (t : Token) : Option Lexer := do
  let dropped ← lx.dropKey
  let taken := { dropped.take 1 t with keyAllowed := false }
  match taken.outer with
  | place :: more => return { taken with key := place, outer := more }
  | [] => return taken

def flowEntry (lx : Lexer) : Option Lexer := do
  let dropped ← lx.dropKey
  return { dropped.take 1 .flowEntry with keyAllowed := true }

def blockEntry (lx : Lexer) : Option Lexer :=
  if lx.inFlow || !lx.keyAllowed then none
  else do
    let opened := lx.openBlock lx.cursor.mark.column lx.tokens.size .blockSequenceStart
    let dropped ← opened.dropKey
    return { dropped.take 1 .blockEntry with keyAllowed := true }

def explicitKey (lx : Lexer) : Option Lexer :=
  if !lx.inFlow && !lx.keyAllowed then none
  else do
    let opened := lx.openBlock lx.cursor.mark.column lx.tokens.size .blockMappingStart
    let dropped ← opened.dropKey
    return { dropped.take 1 .key with keyAllowed := !lx.inFlow }

/-- A `:` after a key.  If a key may have started before, it did: its mark goes in at its
    place. -/
def valueMark (lx : Lexer) : Option Lexer :=
  match lx.key with
  | some place =>
    let marked := { lx with
      tokens := lx.tokens.insertIdxIfInBounds place.position .key, key := none }
    let opened := marked.openBlock place.mark.column place.position .blockMappingStart
    some { opened.take 1 .value with keyAllowed := false }
  | none =>
    if !lx.inFlow && !lx.keyAllowed then none
    else
      let opened := lx.openBlock lx.cursor.mark.column lx.tokens.size .blockMappingStart
      some { opened.take 1 .value with keyAllowed := !lx.inFlow }

def property (lx : Lexer) (read : Option (Token × Cursor)) : Option Lexer := do
  let saved ← lx.saveKey
  let (t, cursor) ← read
  return { saved.push t with keyAllowed := false, cursor := cursor }

def quoted (lx : Lexer) (read : Option (String × Cursor)) : Option Lexer := do
  let saved ← lx.saveKey
  let (text, cursor) ← read
  return { saved.push (.scalar text false) with
    keyAllowed := false, cursor := cursor, adjacent := some cursor.mark.index }

def blockScalar (lx : Lexer) (folded : Bool) : Option Lexer := do
  let saved ← lx.saveKey
  let (text, cursor) ← block? folded lx.indent (lx.cursor.skip 1)
  return { saved.push (.scalar text false) with keyAllowed := true, cursor := cursor }

/-- A plain scalar.  A key may start after it if it is followed by a break. -/
def plainScalar (lx : Lexer) : Option Lexer := do
  let saved ← lx.saveKey
  let plain ← plainFrom lx.inFlow (lx.indent + 1) [] {} lx.cursor.mark lx.cursor.rest
  return { saved.push (.scalar plain.text true) with
    keyAllowed := plain.broken, cursor := plain.cursor }

def next (lx : Lexer) (c : Char) (rest : List Char) : Option Lexer :=
  let cursor := lx.cursor
  let inner := cursor.skip 1
  let starts := cursor.mark.column == 0
  if starts && c == '%' then
    match directive? cursor with
    | some after => lx.documentToken .directive after
    | none => none
  else if starts && atDocumentMarker (c :: rest) then
    lx.documentToken (if c == '-' then .documentStart else .documentEnd) (cursor.skip 3)
  else if c == '[' then lx.flowStart .flowSequenceStart
  else if c == '\x7b' then lx.flowStart .flowMappingStart
  else if c == ']' then lx.flowEnd .flowSequenceEnd
  else if c == '\x7d' then lx.flowEnd .flowMappingEnd
  else if c == ',' then lx.flowEntry
  else if c == '-' && atEdge rest then lx.blockEntry
  else if c == '?' && atEdge rest then lx.explicitKey
  else if c == ':' && (atEdge rest ||
      (lx.inFlow && (atFlowMark rest || lx.adjacent == some cursor.mark.index))) then
    lx.valueMark
  else if c == '*' then lx.property ((reference? cursor).map fun (name, after) =>
      (.alias name, after))
  else if c == '&' then lx.property ((reference? cursor).map fun (name, after) =>
      (.anchor name, after))
  else if c == '!' then lx.property
    ((tag? cursor).map fun (tag, after) => (.tag tag, after))
  else if c == '|' && !lx.inFlow then lx.blockScalar false
  else if c == '>' && !lx.inFlow then lx.blockScalar true
  else if c == '\'' then lx.quoted (singleFrom [] {} inner.mark inner.rest)
  else if c == '"' then lx.quoted (doubleFrom [] {} inner.mark inner.rest)
  else if c == '%' || c == '@' || c == '\x60' then none
  else lx.plainScalar

def finish (lx : Lexer) : Option (Array Token) := do
  let dropped ← (lx.closeBlocks (-1)).dropKey
  return dropped.tokens

/-- The tokens of the rest of the text; every token takes at least one character of
    `fuel`. -/
def run : Nat → Lexer → Option (Array Token)
  | 0, _ => none
  | fuel + 1, lx =>
    match lx.settle with
    | none => none
    | some settled =>
      match settled.cursor.rest with
      | [] => settled.finish
      | c :: rest =>
        match settled.next c rest with
        | none => none
        | some more => run fuel more

end Lexer

def tokens? (text : List Char) : Option (Array Token) :=
  Lexer.run (text.length + 1) { cursor := Cursor.start text }

end WireSchema.Yaml
