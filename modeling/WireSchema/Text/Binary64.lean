import WireSchema.Number

/-!
# Binary floating point numbers

Numbers with 53 significant bits and an exponent of two, exact as pairs of integers.  A
decimal numeral is read as the nearest such number, a half going to the even neighbour; a
number is written with the fewest decimal digits that read back as the same number, always
positionally.
-/

namespace WireSchema.Text

/-- A binary floating point number.  A finite one is `mantissa * 2 ^ exponent`, with a
    sign of its own so that the two zeros differ. -/
inductive Binary64 where
  | nan
  | infinite (negative : Bool)
  | finite (negative : Bool) (mantissa : Nat) (exponent : Int)
  deriving DecidableEq, Repr

namespace Binary64

def leastExponent : Int := -1074

def greatestExponent : Int := 971

def mantissaLimit : Nat := Nat.pow 2 53

/-- `numerator / denominator` rounded to the nearest integer, a half going to the even
    neighbour. -/
def roundDiv (numerator denominator : Nat) : Nat :=
  let q := numerator / denominator
  let r := numerator % denominator
  if 2 * r < denominator then q
  else if denominator < 2 * r then q + 1
  else if q % 2 = 0 then q else q + 1

/-- The fraction `numerator / (denominator * 2 ^ exponent)` as numerator and denominator. -/
def scaled (numerator denominator : Nat) (exponent : Int) : Nat × Nat :=
  if exponent < 0 then (numerator * Nat.pow 2 (-exponent).toNat, denominator)
  else (numerator, denominator * Nat.pow 2 exponent.toNat)

/-- The exponent with which a positive fraction has a mantissa of 53 bits, or the least
    exponent. -/
def exponentOf (numerator denominator : Nat) : Int :=
  let guess : Int := (numerator.log2 : Int) - (denominator.log2 : Int) - 52
  let (n, d) := scaled numerator denominator guess
  max leastExponent (if n / d < mantissaLimit / 2 then guess - 1 else guess)

def ofFraction (negative : Bool) (numerator denominator : Nat) : Binary64 :=
  let e := exponentOf numerator denominator
  let (n, d) := scaled numerator denominator e
  let m := roundDiv n d
  let (m, e) := if m = mantissaLimit then (mantissaLimit / 2, e + 1) else (m, e)
  if greatestExponent < e then .infinite negative else .finite negative m e

/-- The number nearest to `digits * 10 ^ exponent`.  Far outside the range of finite
    numbers the answer does not depend on the digits. -/
def ofDecimal (negative : Bool) (digits : Nat) (exponent : Int) : Binary64 :=
  let magnitude : Int := ((Nat.toDigits 10 digits).length : Int) + exponent
  if digits = 0 || decide (magnitude < -400) then .finite negative 0 leastExponent
  else if 400 < magnitude then .infinite negative
  else if exponent < 0 then ofFraction negative digits (Nat.pow 10 (-exponent).toNat)
  else ofFraction negative (digits * Nat.pow 10 exponent.toNat) 1

/-! ### Reading -/

def exponentPart? : List Char → Option Int
  | [] => some 0
  | c :: rest => if c = 'e' || c = 'E' then signed? 10 rest else none

/-- An unsigned decimal numeral: digits with an optional point among them, at least one
    digit, and an exponent part. -/
def ofUnsigned? (negative : Bool) (cs : List Char) : Option Binary64 :=
  let isDigit := fun c => (digit? 10 c).isSome
  let whole := cs.takeWhile isDigit
  let rest := cs.dropWhile isDigit
  let (fraction, rest) :=
    match rest with
    | '.' :: more => (more.takeWhile isDigit, more.dropWhile isDigit)
    | _ => ([], rest)
  match numeral? 10 (whole ++ fraction), exponentPart? rest with
  | some digits, some e => some (ofDecimal negative digits (e - fraction.length))
  | _, _ => none

def ofName? (negative : Bool) (cs : List Char) : Option Binary64 :=
  let name := String.ofList (cs.map Char.toLower)
  if name == "inf" || name == "infinity" then some (.infinite negative)
  else if name == "nan" then some .nan
  else none

def read? (cs : List Char) : Option Binary64 :=
  let (negative, rest) :=
    match cs with
    | '-' :: rest => (true, rest)
    | '+' :: rest => (false, rest)
    | _ => (false, cs)
  match ofName? negative rest with
  | some x => some x
  | none => ofUnsigned? negative rest

/-! ### Writing -/

def compareDecimal (digits : Nat) (exponent : Int) (numerator denominator : Nat) :
    Ordering :=
  if exponent < 0 then compare (digits * denominator)
    (numerator * Nat.pow 10 (-exponent).toNat)
  else compare (digits * Nat.pow 10 exponent.toNat * denominator) numerator

/-- The integer part of `numerator / denominator / 10 ^ exponent`. -/
def gridFloor (numerator denominator : Nat) (exponent : Int) : Nat :=
  if exponent < 0 then numerator * Nat.pow 10 (-exponent).toNat / denominator
  else numerator / (denominator * Nat.pow 10 exponent.toNat)

/-- The number of digits before the point of a positive fraction; zero or less when it
    starts after the point. -/
def magnitudeOf (numerator denominator : Nat) : Int :=
  let whole := numerator / denominator
  if whole = 0 then
    let zeros := ((List.range 400).find? fun k =>
        decide (denominator ≤ numerator * Nat.pow 10 (k + 1))).getD 400
    Int.neg (zeros : Int)
  else ((Nat.toDigits 10 whole).length : Int)

/-- The decimal with the fewest digits in the interval that reads back as
    `mantissa * 2 ^ exponent`, the nearer one of two, and the greater one if both are as
    near: a positive number as digits and exponent of ten. -/
def shortest (mantissa : Nat) (exponent : Int) : Nat × Int :=
  -- Four times the mantissa, so that both ends of the interval are integers.
  let unit := scaled 1 1 (-(exponent - 2))
  let value := 4 * mantissa * unit.1
  let step := if mantissa = mantissaLimit / 2 && exponent != leastExponent then 1 else 2
  let low := (4 * mantissa - step) * unit.1
  let high := (4 * mantissa + 2) * unit.1
  let den := unit.2
  let closed := mantissa % 2 = 0
  let inside := fun (d : Nat) (k : Int) =>
    match compareDecimal d k low den, compareDecimal d k high den with
    | .gt, .lt => true
    | .eq, .lt => closed
    | .gt, .eq => closed
    | _, _ => false
  let magnitude := magnitudeOf value den
  let candidate := fun (count : Nat) =>
    let k := magnitude - count
    let d := gridFloor value den k
    match inside d k, inside (d + 1) k with
    | true, true =>
      -- The middle of the two neighbours tells which is nearer.
      if compareDecimal (10 * d + 5) (k - 1) value den == .gt then some (d, k)
        else some (d + 1, k)
    | true, false => some (d, k)
    | false, true => some (d + 1, k)
    | false, false => none
  ((List.range 17).findSome? fun i => candidate (i + 1)).getD (mantissa, 0)

/-- Digits and a power of ten written positionally, with at least one digit on each side
    of the point. -/
def positional (digits : Nat) (exponent : Int) : String :=
  let ds := Nat.toDigits 10 digits
  if 0 ≤ exponent then String.ofList (ds ++ List.replicate exponent.toNat '0' ++ ['.', '0'])
  else
    let places := (-exponent).toNat
    let padded := List.replicate (places + 1 - ds.length) '0' ++ ds
    let whole := padded.length - places
    String.ofList (padded.take whole ++ '.' :: padded.drop whole)

/-- Zeros at the end of the digits moved into the exponent, at most `count` of them. -/
def stripZeros : Nat → Nat → Int → Nat × Int
  | 0, digits, exponent => (digits, exponent)
  | count + 1, digits, exponent =>
    if digits % 10 = 0 && digits != 0 then stripZeros count (digits / 10) (exponent + 1)
      else (digits, exponent)

def text : Binary64 → String
  | .nan => "NaN"
  | .infinite negative => if negative then "-inf" else "inf"
  | .finite negative m e =>
    let body :=
      if m = 0 then "0.0"
      else
        let (d, k) := shortest m e
        let (d, k) := stripZeros 20 d k
        positional d k
    if negative then "-" ++ body else body

/-- Two numbers are the same number: the zeros are equal, and so are all values that are
    no number. -/
def same : Binary64 → Binary64 → Bool
  | .nan, .nan => true
  | .infinite a, .infinite b => a == b
  | .finite a m e, .finite b n f => (m == 0 && n == 0) || (a == b && m == n && e == f)
  | _, _ => false

def isFinite : Binary64 → Bool
  | .finite .. => true
  | _ => false

end Binary64

end WireSchema.Text
