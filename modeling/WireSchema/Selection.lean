import WireSchema.Number
import WireSchema.Text.Split

/-!
# Selections of declarations

A selection says for which declarations a stage writes trace lines.  Declarations are
numbered from 1.  It is written `all`, `off`, `N`, `N:M`, `N:` or `:M`.
-/

namespace WireSchema

inductive Selection where
  | all
  | off
  | only (n : Nat)
  | before (last : Nat)
  | after (first : Nat)
  | between (first last : Nat)
  deriving DecidableEq, Repr

namespace Selection

def selects : Selection → Nat → Bool
  | .all, _ => true
  | .off, _ => false
  | .only n, m => m == n
  | .before last, m => decide (m ≤ last)
  | .after first, m => decide (first ≤ m)
  | .between first last, m => decide (first ≤ m) && decide (m ≤ last)

def number? (cs : List Char) : Option Nat :=
  match Text.unsigned? 10 cs with
  | some n => if n < wordLimit then some n else none
  | none => none

/-- A range with its colon, from the texts before and after it. -/
def range? : List Char → List Char → Option Selection
  | [], [] => some .all
  | [], last => (number? last).map .before
  | first, [] => (number? first).map .after
  | first, last =>
    match number? first, number? last with
    | some a, some b => if a ≤ b then some (.between a b) else none
    | _, _ => none

def parseChars (cs : List Char) : Option Selection :=
  if cs = ['a', 'l', 'l'] then some .all
  else if cs = ['o', 'f', 'f'] then some .off
  else
    match Text.splitFirst? ':' cs with
    | none => (number? cs).map .only
    | some (first, last) => range? first last

/-- The selection that a text spells, white space around it aside. -/
def parse (text : String) : Option Selection := parseChars (Text.trimChars text.toList)

end Selection

end WireSchema
