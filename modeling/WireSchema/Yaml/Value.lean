import WireSchema.Text.Binary64
import WireSchema.Number
import WireSchema.Yaml.Node
import WireSchema.Yaml.Token.Lexer

/-!
# Values

What a document means: plain scalars are numbers, truth values or text, aliases are
followed, and a mapping has every key once.  `Value.ofText?` reads a document.
-/

namespace WireSchema.Yaml

open WireSchema.Text

/-- The meaning of a node.  A mapping keeps the order in which its keys are first
    written. -/
inductive Value where
  | null
  | bool (b : Bool)
  | int (n : Int)
  | float (x : Binary64)
  | text (s : String)
  | sequence (items : List Value)
  | mapping (entries : List (Value × Value))

namespace Value

/-! ### Equality of keys -/

mutual

/-- Two values are the same key.  The order of the entries of a mapping does not matter. -/
def same : Value → Value → Bool
  | .null, .null => true
  | .bool a, .bool b => a == b
  | .int a, .int b => a == b
  | .float a, .float b => a.same b
  | .text a, .text b => a == b
  | .sequence as, .sequence bs => sameItems as bs
  | .mapping as, .mapping bs => as.length == bs.length && sameEntries as bs
  | _, _ => false

def sameItems : List Value → List Value → Bool
  | [], [] => true
  | a :: as, b :: bs => same a b && sameItems as bs
  | _, _ => false

def sameEntries : List (Value × Value) → List (Value × Value) → Bool
  | [], _ => true
  | (k, v) :: more, bs => (bs.any fun b => same k b.1 && same v b.2) && sameEntries more bs

end

/-- The entries with `value` under `key`: a key that is there keeps its place and takes
    the new value. -/
def put (entries : List (Value × Value)) (key value : Value) : List (Value × Value) :=
  match entries with
  | [] => [(key, value)]
  | (k, v) :: more =>
    if same k key then (k, value) :: more else (k, v) :: put more key value

/-! ### Scalars -/

def unsignedWord? (base : Nat) (digits : List Char) : Option Int :=
  (unsigned? base digits).bind fun n => if n < wordLimit then some (n : Int) else none

/-- An integer in a base named by a letter: an optional sign, `0`, the letter, and the
    digits. -/
def based? (letter : Char) (base : Nat) : List Char → Option Int
  | '-' :: '0' :: l :: digits =>
    if l == letter then (numeral? base digits).bind fun n => if isSigned64 (-(n : Int))
      then some (-(n : Int)) else none
    else none
  | '+' :: '0' :: l :: digits => if l == letter then unsignedWord? base digits else none
  | '0' :: l :: digits => if l == letter then unsignedWord? base digits else none
  | _ => none

/-- Digits that start with a superfluous zero, after any number of signs: such a scalar is
    text. -/
def hasLeadingZero (cs : List Char) : Bool :=
  match cs.dropWhile fun c => c == '-' || c == '+' with
  | '0' :: d :: ds => (d :: ds).all Char.isDigit
  | _ => false

def named? (cs : List Char) : Option Binary64 :=
  let isInfinity := fun (s : String) => s == ".inf" || s == ".Inf" || s == ".INF"
  let s := String.ofList cs
  if isInfinity (String.ofList (cs.dropWhile (· == '+'))) then some (.infinite false)
  else if s == "-.inf" || s == "-.Inf" || s == "-.INF" then some (.infinite true)
  else if s == ".nan" || s == ".NaN" || s == ".NAN" then some .nan
  else none

/-- A decimal integer.  One that fits neither a signed nor an unsigned word is refused if
    128 bits would hold it, and no integer otherwise. -/
inductive Decimal where
  | fits (n : Int)
  | refused
  | none

def decimal (cs : List Char) : Decimal :=
  match signed? 10 cs with
  | Option.none => .none
  | some n =>
    if isSigned64 n || (decide (0 ≤ n) && decide (n < (wordLimit : Int))) then .fits n
    else if decide (-((Nat.pow 2 127 : Nat) : Int) ≤ n) &&
      decide (n < ((Nat.pow 2 128 : Nat) : Int)) then .refused
    else .none

def finite? (cs : List Char) : Option Binary64 :=
  (Binary64.read? cs).bind fun x => if x.isFinite then some x else none

/-- The value of a plain scalar without a tag; the first form that fits counts.  The empty
    scalar, which stands where an anchor has no content, is text. -/
def ofPlain? (s : String) : Option Value :=
  let cs := s.toList
  if s == "~" || s == "null" then some .null
  else if s == "true" then some (.bool true)
  else if s == "false" then some (.bool false)
  else
    match (based? 'x' 16 cs).orElse fun _ => (based? 'o' 8 cs).orElse fun _ =>
      based? 'b' 2 cs with
    | some n => some (.int n)
    | none =>
      if hasLeadingZero cs then some (.text s)
      else
        match decimal cs with
        | .fits n => some (.int n)
        | .refused => none
        | .none =>
          match (named? cs).orElse fun _ => finite? cs with
          | some x => some (.float x)
          | none => some (.text s)

/-- The value of a scalar whose tag names its type; every other tag makes it text. -/
def ofTagged? (tag : Tag) (s : String) : Option Value :=
  let cs := s.toList
  if tag.handle == "!!" then
    if tag.suffix == "bool" then
      if s == "true" then some (.bool true) else if s == "false"
        then some (.bool false) else none
    else if tag.suffix == "int" then
      (signed? 10 cs).bind fun n => if isSigned64 n then some (.int n) else none
    else if tag.suffix == "float" then (Binary64.read? cs).map .float
    else if tag.suffix == "null" then if s == "~" || s == "null" then some .null else none
    else some (.text s)
  else some (.text s)

def ofScalar? (s : String) (plain : Bool) (tag : Option Tag) : Option Value :=
  match tag with
  | some tag => ofTagged? tag s
  | none => if plain then ofPlain? s else some (.text s)

/-! ### Documents -/

def depthLimit : Nat := 128

/-- The value of a node with at most `depth` collections inside one another.  An alias
    stands for its node wherever it is written, and how often does not matter; one inside
    its own node is refused, since it has no bottom. -/
def ofNode (doc : Document) (depth : Nat) (node : Node) : Option Value := do
  match depth, ← doc.follow? node with
  | _, .scalar s plain tag => ofScalar? s plain tag
  | depth + 1, .sequence items => return .sequence (← items.mapM (ofNode doc depth))
  | depth + 1, .mapping entries =>
    let pairs ← entries.mapM fun entry => do
      let key ← ofNode doc depth entry.1
      let value ← ofNode doc depth entry.2
      return (key, value)
    return .mapping (pairs.foldl (fun known pair => put known pair.1 pair.2) [])
  | _, _ => none

def ofText? (s : String) : Option Value := do
  let tokens ← tokens? s.toList
  let doc ← Document.ofTokens? tokens.toList
  ofNode doc depthLimit doc.root

end Value

end WireSchema.Yaml
