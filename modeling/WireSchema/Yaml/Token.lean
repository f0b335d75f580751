import WireSchema.Number
import WireSchema.Yaml.Cursor

/-!
# Tokens

The tokens of a document.  Indentation has become explicit: a block collection starts with
a token and ends with `blockEnd`, and the mark of a mapping key stands before the key
although the text shows it only by the `:` after.

Tags are written `!suffix`, `!handle!suffix` or `!<name>`; anchors and aliases are words
after `&` and `*`; directives are lines that start with `%`.
-/

namespace WireSchema.Yaml

open WireSchema.Text (digit?)

structure Tag where
  handle : String
  suffix : String
  deriving DecidableEq, Repr

inductive Token where
  | directive
  | documentStart
  | documentEnd
  | blockSequenceStart
  | blockMappingStart
  | blockEnd
  | flowSequenceStart
  | flowSequenceEnd
  | flowMappingStart
  | flowMappingEnd
  | blockEntry
  | flowEntry
  | key
  | value
  | alias (name : String)
  | anchor (name : String)
  | tag (tag : Tag)
  | scalar (text : String) (plain : Bool)
  deriving DecidableEq, Repr

/-! ### Tags -/

/-- The characters of a tag after its handle, `%` included, which starts an escaped
    octet. -/
def isUriChar (c : Char) : Bool :=
  isWord c || ";/?:@&=+$,.!~*'()[]%".toList.contains c

/-- The octets that follow a leading octet in an escaped character; no octet may lead it
    otherwise. -/
def trailingOctets? (octet : Nat) : Option Nat :=
  if octet < 0x80 then some 0
  else if octet / 0x20 = 6 then some 1
  else if octet / 0x10 = 14 then some 2
  else if octet / 0x08 = 30 then some 3
  else none

def octet? (a b : Char) : Option Nat :=
  match digit? 16 a, digit? 16 b with
  | some x, some y => some (16 * x + y)
  | _, _ => none

/-- The rest of a tag.  `pending` octets of an escaped character are still to come after
    those in `code`. -/
def tagUriFrom (text : List Char) (pending : Nat) (code : Nat) (mark : Mark) :
    List Char → Option (List Char × Cursor)
  | '%' :: a :: b :: rest =>
    match octet? a b with
    | none => none
    | some octet =>
      let mark := mark.afterAll ['%', a, b]
      let step :=
        if pending = 0 then (trailingOctets? octet).map fun n => (n, octet)
        else if octet / 0x40 = 2 then some (pending - 1, code * 256 + octet)
        else none
      match step with
      | none => none
      | some (0, n) =>
        if n.isValidChar then tagUriFrom (Char.ofNat n :: text) 0 0 mark rest else none
      | some (more, n) => tagUriFrom text more n mark rest
  | c :: rest =>
    if 0 < pending || c == '%' then none
    else if isUriChar c then tagUriFrom (c :: text) 0 0 (mark.after c) rest
    else some (text.reverse, ⟨mark, c :: rest⟩)
  | [] => if 0 < pending then none else some (text.reverse, ⟨mark, []⟩)

def tagHandle? (cursor : Cursor) : Option (List Char × Cursor) :=
  if cursor.peek? == some '!' then
    let (word, after) := (cursor.skip 1).takeWhile isWord
    if after.peek? == some '!' then some ('!' :: word ++ ['!'], after.skip 1)
    else some ('!' :: word, after)
  else none

/-- A tag, at its `!`.  A blank or the end must follow it. -/
def tag? (cursor : Cursor) : Option (Tag × Cursor) :=
  let found :=
    if (cursor.rest.drop 1).head? == some '<' then
      let inner := cursor.skip 2
      match tagUriFrom [] 0 0 inner.mark inner.rest with
      | some (uri, after) =>
        if !uri.isEmpty && after.peek? == some '>'
          then some ((⟨"", String.ofList uri⟩ : Tag), after.skip 1) else none
      | none => none
    else
      match tagHandle? cursor with
      | none => none
      | some (handle, after) =>
        match tagUriFrom [] 0 0 after.mark after.rest with
        | none => none
        | some (uri, final) =>
          if 2 ≤ handle.length && handle.getLast? == some '!' then
            if uri.isEmpty then none else some (⟨String.ofList handle, String.ofList uri⟩,
                final)
          else
            let suffix := handle.drop 1 ++ uri
            if suffix.isEmpty then some (⟨"", "!"⟩, final)
              else some (⟨"!", String.ofList suffix⟩, final)
  match found with
  | some (tag, after) => if atEdge after.rest then some (tag, after) else none
  | none => none

/-! ### Anchors and aliases -/

def reference? (cursor : Cursor) : Option (String × Cursor) :=
  let (word, after) := (cursor.skip 1).takeWhile isWord
  let follows :=
    match after.rest with
    | [] => true
    | c :: _ => isSpace c || isBreak c || "?:,]\x7d%@\x60".toList.contains c
  if !word.isEmpty && follows then some (String.ofList word, after) else none

/-! ### Directives -/

/-- A version number of at most nine digits. -/
def versionNumber? (cursor : Cursor) : Option Cursor :=
  let (digits, after) := cursor.takeWhile Char.isDigit
  if digits.isEmpty || decide (9 < digits.length) then none else some after

def version? (cursor : Cursor) : Option Cursor :=
  match versionNumber? (cursor.skipWhile isSpace) with
  | some after => if after.peek? == some '.' then versionNumber? (after.skip 1) else none
  | none => none

/-- The arguments of a tag directive: a handle that is `!` or ends with `!`, and a tag. -/
def tagDirective? (cursor : Cursor) : Option Cursor :=
  match tagHandle? (cursor.skipWhile isSpace) with
  | none => none
  | some (handle, after) =>
    if handle == ['!'] || (decide (2 ≤ handle.length) && handle.getLast? == some '!') then
      let after := after.skipWhile isSpace
      match tagUriFrom [] 0 0 after.mark after.rest with
      | some (uri, final) => if !uri.isEmpty && atEdge final.rest then some final else none
      | none => none
    else none

/-- A directive, at its `%`, up to the next line.  Directives other than the two known
    ones are passed over. -/
def directive? (cursor : Cursor) : Option Cursor :=
  let (name, after) := (cursor.skip 1).takeWhile isWord
  if name.isEmpty || !atEdge after.rest then none
  else
    let arguments :=
      if name == "YAML".toList then version? after
      else if name == "TAG".toList then tagDirective? after
      else some after.skipLine
    match arguments with
    | none => none
    | some cursor =>
      let cursor := cursor.skipWhile isSpace
      let cursor := if cursor.peek? == some '#' then cursor.skipLine else cursor
      match cursor.rest with
      | [] => some cursor
      | c :: _ => if isBreak c then some cursor.skipBreak else none

end WireSchema.Yaml
