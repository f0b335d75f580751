import WireSchema.Number
import WireSchema.Yaml.Cursor

/-!
# Scalars that fold their lines

Plain and quoted scalars.  Both go on over several lines, and what separates two lines is
folded: one break becomes a space, more breaks lose one.  Each reader walks the characters
once; `text` is what it has read, last character first.
-/

namespace WireSchema.Yaml

open WireSchema.Text (numeral?)

/-! ### Gaps -/

/-- The white space since the last character of a scalar. -/
structure Gap where
  /-- The blanks before the first break, last one first. -/
  blanks : List Char := []
  /-- The number of breaks. -/
  breaks : Nat := 0
  /-- The gap starts with a break that a backslash has removed. -/
  escaped : Bool := false

namespace Gap

def isEmpty (g : Gap) : Bool := g.blanks.isEmpty && g.breaks == 0 && !g.escaped

/-- The gap with one more blank; after a break blanks do not count. -/
def space (g : Gap) (c : Char) : Gap :=
  if g.breaks == 0 && !g.escaped then { g with blanks := c :: g.blanks } else g

def newline (g : Gap) : Gap := { g with breaks := g.breaks + 1 }

def fold (g : Gap) (text : List Char) : List Char :=
  if g.escaped then List.replicate g.breaks '\n' ++ text
  else if g.breaks = 0 then g.blanks ++ text
  else if g.breaks = 1 then ' ' :: text
  else List.replicate (g.breaks - 1) '\n' ++ text

end Gap

/-! ### Plain scalars -/

structure Plain where
  text : String
  /-- The white space after it holds a break. -/
  broken : Bool
  cursor : Cursor

def endsPlain (flow : Bool) (c : Char) (rest : List Char) : Bool :=
  (c == ':' && (atEdge rest || (flow && atFlowMark rest))) || (flow && isFlowMark c)

/-- A plain scalar.  In block context a continuation line starts at column `least` or
    further right, and a tab must not stand left of it. -/
def plainFrom (flow : Bool) (least : Int) (text : List Char) (gap : Gap) (mark : Mark) :
    List Char → Option Plain
  | [] => some ⟨String.ofList text.reverse, 0 < gap.breaks, ⟨mark, []⟩⟩
  | c :: rest =>
    if isSpace c then
      if c == '\t' && decide (0 < gap.breaks) && decide ((mark.column : Int) < least)
        then none
      else plainFrom flow least text (gap.space c) (mark.after c) rest
    else if isBreak c then plainFrom flow least text gap.newline (mark.after c) rest
    else if (!gap.isEmpty && (c == '#' || (!flow && decide ((mark.column : Int) < least))))
        || (mark.column == 0 && atDocumentMarker (c :: rest))
        || endsPlain flow c rest then
      some ⟨String.ofList text.reverse, 0 < gap.breaks, ⟨mark, c :: rest⟩⟩
    else plainFrom flow least (c :: gap.fold text) {} (mark.after c) rest

/-! ### Quoted scalars -/

/-- A single-quoted scalar, after its opening quote; a quote is written twice. -/
def singleFrom (text : List Char) (gap : Gap) (mark : Mark) :
    List Char → Option (String × Cursor)
  | [] => none
  | '\'' :: '\'' :: rest =>
    singleFrom ('\'' :: gap.fold text) {} (mark.afterAll ['\'', '\'']) rest
  | '\'' :: rest => some (String.ofList (gap.fold text).reverse, ⟨mark.after '\'', rest⟩)
  | c :: rest =>
    if isSpace c then singleFrom text (gap.space c) (mark.after c) rest
    else if isBreak c then singleFrom text gap.newline (mark.after c) rest
    else if mark.column == 0 && atDocumentMarker (c :: rest) then none
    else singleFrom (c :: gap.fold text) {} (mark.after c) rest

def escape? : Char → Option Char
  | '0' => some '\x00'
  | 'a' => some '\x07'
  | 'b' => some '\x08'
  | 't' => some '\t'
  | '\t' => some '\t'
  | 'n' => some '\n'
  | 'v' => some '\x0b'
  | 'f' => some '\x0c'
  | 'r' => some '\r'
  | 'e' => some '\x1b'
  | ' ' => some ' '
  | '"' => some '"'
  | '\'' => some '\''
  | '\\' => some '\\'
  | 'N' => some '\u0085'
  | '_' => some '\u00a0'
  | 'L' => some '\u2028'
  | 'P' => some '\u2029'
  | _ => none

def hexChar? (digits : List Char) : Option Char :=
  match numeral? 16 digits with
  | some n => if n.isValidChar then some (Char.ofNat n) else none
  | none => none

def doubleFrom (text : List Char) (gap : Gap) (mark : Mark) :
    List Char → Option (String × Cursor)
  | [] => none
  | '"' :: rest => some (String.ofList (gap.fold text).reverse, ⟨mark.after '"', rest⟩)
  | '\\' :: 'x' :: a :: b :: rest =>
    match hexChar? [a, b] with
    | some ch => doubleFrom (ch :: gap.fold text) {} (mark.afterAll ['\\', 'x', a, b]) rest
    | none => none
  | '\\' :: 'u' :: a :: b :: c :: d :: rest =>
    match hexChar? [a, b, c, d] with
    | some ch =>
      doubleFrom (ch :: gap.fold text) {} (mark.afterAll ['\\', 'u', a, b, c, d]) rest
    | none => none
  | '\\' :: 'U' :: a :: b :: c :: d :: e :: f :: g :: h :: rest =>
    match hexChar? [a, b, c, d, e, f, g, h] with
    | some ch =>
      doubleFrom (ch :: gap.fold text) {}
        (mark.afterAll ['\\', 'U', a, b, c, d, e, f, g, h]) rest
    | none => none
  | '\\' :: c :: rest =>
    if isBreak c then doubleFrom (gap.fold text) { escaped := true }
      (mark.afterAll ['\\', c]) rest
    else
      match escape? c with
      | some ch => doubleFrom (ch :: gap.fold text) {} (mark.afterAll ['\\', c]) rest
      | none => none
  | c :: rest =>
    if isSpace c then doubleFrom text (gap.space c) (mark.after c) rest
    else if isBreak c then doubleFrom text gap.newline (mark.after c) rest
    else if mark.column == 0 && atDocumentMarker (c :: rest) then none
    else doubleFrom (c :: gap.fold text) {} (mark.after c) rest

end WireSchema.Yaml
