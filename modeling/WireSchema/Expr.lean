import WireSchema.Number
import WireSchema.Text.Split

/-!
# Expressions

An expression gives a parameter value or a width: an integer, or the value or width of
another declaration.  It is written as a decimal integer, `NAME`, `NAME.value` or
`NAME.width`, with white space around it.
-/

namespace WireSchema

inductive Quantity where
  | value
  | width
  deriving DecidableEq, Repr

inductive Expr where
  | literal (n : Int)
  | ref (name : String) (quantity : Quantity)
  deriving DecidableEq, Repr

/-! ### Identifiers -/

def isIdentifierStart (c : Char) : Bool := c.isAlpha || c == '_'

def isIdentifierRest (c : Char) : Bool := c.isAlphanum || c == '_'

/-- An ASCII letter or underscore, then letters, digits and underscores. -/
def isIdentifierChars : List Char → Bool
  | [] => false
  | c :: rest => isIdentifierStart c && rest.all isIdentifierRest

def isIdentifier (s : String) : Bool := isIdentifierChars s.toList

namespace Expr

/-! ### Reading -/

/-- The declaration name and the quantity that a text asks for; without a point it is the
    value. -/
def target? (cs : List Char) : Option (List Char × Quantity) :=
  match Text.splitLast? '.' cs with
  | none => some (cs, .value)
  | some (name, quantity) =>
    if quantity = ['v', 'a', 'l', 'u', 'e'] then some (name, .value)
    else if quantity = ['w', 'i', 'd', 't', 'h'] then some (name, .width)
    else none

/-- An integer in the range of signed words. -/
def literal? (cs : List Char) : Option Int :=
  match Text.signed? 10 cs with
  | some n => if isSigned64 n then some n else none
  | none => none

def parseChars (cs : List Char) : Option Expr :=
  match literal? cs with
  | some n => some (.literal n)
  | none =>
    match target? cs with
    | some (name, quantity) =>
      if isIdentifierChars name then some (.ref (String.ofList name) quantity) else none
    | none => none

/-- The expression that a text spells, white space around it aside. -/
def parse (text : String) : Option Expr := parseChars (Text.trimChars text.toList)

def reference : Expr → Option String
  | .literal _ => none
  | .ref name _ => some name

end Expr

end WireSchema
