/-!
# Numbers

Widths, values and positions are 64-bit unsigned words; literals are 64-bit signed
integers.  They are kept as `Nat` and `Int`, and the ranges are checked where a number
enters.  In text, a numeral is one or more digits of its base; `_` and blanks are not part
of one.
-/

namespace WireSchema

/-! ### Words -/

def wordLimit : Nat := Nat.pow 2 64

def signedLimit : Nat := Nat.pow 2 63

def isSigned64 (n : Int) : Bool :=
  decide (-(signedLimit : Int) ≤ n) && decide (n < (signedLimit : Int))

def word? (n : Int) : Option Nat :=
  if 0 ≤ n ∧ n < (wordLimit : Int) then some n.toNat else none

/-! ### Numbers of bits -/

/-- The number of binary digits of a number; zero has none. -/
def bits (n : Nat) : Nat := if n = 0 then 0 else n.log2 + 1

/-- The number of bits that represent `value`; zero takes one bit. -/
def bitWidth (value : Nat) : Nat := max 1 (bits value)

/-- The number of bits that count from zero to `value`, that is represent `value + 1`. -/
def countWidth (value : Nat) : Nat := bits (value + 1)

/-! ### Numerals -/

namespace Text

/-- The value of a digit in a base up to 16; letters count in either case. -/
def digit? (base : Nat) (c : Char) : Option Nat :=
  let n := c.toNat
  let value :=
    if 48 ≤ n ∧ n ≤ 57 then n - 48
    else if 97 ≤ n ∧ n ≤ 102 then n - 87
    else if 65 ≤ n ∧ n ≤ 70 then n - 55
    else base
  if value < base then some value else none

/-- The number the digits denote after `acc`, the value of the digits before them. -/
def digitsFrom? (base : Nat) (acc : Nat) : List Char → Option Nat
  | [] => some acc
  | c :: rest =>
    match digit? base c with
    | some d => digitsFrom? base (acc * base + d) rest
    | none => none

def numeral? (base : Nat) : List Char → Option Nat
  | [] => none
  | cs => digitsFrom? base 0 cs

def unsigned? (base : Nat) : List Char → Option Nat
  | '+' :: rest => numeral? base rest
  | cs => numeral? base cs

def signed? (base : Nat) : List Char → Option Int
  | '-' :: rest => (numeral? base rest).map fun n => -(n : Int)
  | '+' :: rest => (numeral? base rest).map fun n => (n : Int)
  | cs => (numeral? base cs).map fun n => (n : Int)

end Text

end WireSchema
