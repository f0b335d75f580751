/-!
# JSON

A small JSON tree and its text: two blanks for every level, one entry on a line.
-/

namespace WireSchema

/-- A JSON tree without fractions, truth values and null. -/
inductive Json where
  | number (n : Nat)
  | text (s : String)
  | list (items : List Json)
  | object (entries : List (String × Json))
  deriving Repr

namespace Json

def hexDigit (n : Nat) : Char := Nat.digitChar (n % 16)

def escapeChar (c : Char) : List Char :=
  if c == '"' then ['\\', '"']
  else if c == '\\' then ['\\', '\\']
  else if c == '\x08' then ['\\', 'b']
  else if c == '\x0c' then ['\\', 'f']
  else if c == '\n' then ['\\', 'n']
  else if c == '\r' then ['\\', 'r']
  else if c == '\t' then ['\\', 't']
  else if c.toNat < 0x20 then ['\\', 'u', '0', '0', hexDigit (c.toNat / 16),
      hexDigit c.toNat]
  else [c]

def quote (s : String) : List Char := '"' :: s.toList.flatMap escapeChar ++ ['"']

def newLine (level : Nat) : List Char := '\n' :: List.replicate (2 * level) ' '

mutual

/-- The text of a tree that stands at a level. -/
def chars (level : Nat) : Json → List Char
  | .number n => (toString n).toList
  | .text s => quote s
  | .list [] => ['[', ']']
  | .list (item :: rest) =>
    '[' :: newLine (level + 1) ++ chars (level + 1) item ++ itemChars level rest ++
      newLine level ++ [']']
  | .object [] => ['\x7b', '\x7d']
  | .object ((key, value) :: rest) =>
    '\x7b' :: newLine (level + 1) ++ quote key ++ [':', ' '] ++ chars (level + 1) value ++
      entryChars level rest ++ newLine level ++ ['\x7d']

def itemChars (level : Nat) : List Json → List Char
  | [] => []
  | item :: rest =>
    ',' :: newLine (level + 1) ++ chars (level + 1) item ++ itemChars level rest

def entryChars (level : Nat) : List (String × Json) → List Char
  | [] => []
  | (key, value) :: rest =>
    ',' :: newLine (level + 1) ++ quote key ++ [':', ' '] ++ chars (level + 1) value ++
      entryChars level rest

end

/-- The text of a tree, with a line feed at its end. -/
def render (tree : Json) : String := String.ofList (chars 0 tree ++ ['\n'])

end Json

end WireSchema
