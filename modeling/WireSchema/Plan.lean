import WireSchema.Package
import WireSchema.SymbolTable

/-!
# Plans

How widths and values are computed, apart from when.  A plan is a computation over a
symbol table that may ask for quantities of declarations; who answers is left open.
`rule` gives the plan of every quantity.
-/

namespace WireSchema

structure Key (t : SymbolTable) where
  id : t.Id
  quantity : Quantity
  deriving DecidableEq, Repr

/-- A computation that may ask for quantities. -/
inductive Plan (t : SymbolTable) (α : Type) where
  | done (a : α)
  | fail (e : Error)
  | ask (key : Key t) (next : Nat → Plan t α)

namespace Plan

variable {t : SymbolTable} {α β : Type}

def andThen : Plan t α → (α → Plan t β) → Plan t β
  | .done a, f => f a
  | .fail e, _ => .fail e
  | .ask key next, f => .ask key fun n => (next n).andThen f

instance : Monad (Plan t) where
  pure := .done
  bind := andThen

def ofExcept : Except Error α → Plan t α
  | .ok a => .done a
  | .error e => .fail e

def valueOf (id : t.Id) : Plan t Nat := .ask ⟨id, .value⟩ .done

def widthOf (id : t.Id) : Plan t Nat := .ask ⟨id, .width⟩ .done

/-! ### Expressions and widths -/

/-- A width in bits: at least one, and a word. -/
def checkedWidth (name : String) (width : Int) : Except Error Nat :=
  if width < 1 then .error (.invalidWidth name width)
  else
    match word? width with
    | some n => .ok n
    | none => .error (.widthOverflow name)

/-- The value of an expression of the declaration `owner`.  Only parameters have a value;
    every declaration has a width. -/
def eval (owner : String) : Expr → Plan t Int
  | .literal n => .done n
  | .ref name .value => do
    let id ← ofExcept (t.resolveRef owner name)
    if (t.get id).kind = .parameter then
      let n ← valueOf id
      return (n : Int)
    else .fail (.wrongKind owner name (t.get id).kind .parameter)
  | .ref name .width => do
    let id ← ofExcept (t.resolveRef owner name)
    let n ← widthOf id
    return (n : Int)

/-- The declaration `type`, which the declaration `owner` uses as a type.  A parameter is
    no type. -/
def typeRef (owner type : String) : Plan t t.Id := do
  let id ← ofExcept (t.resolveRef owner type)
  if (t.get id).kind = .parameter then .fail (.wrongKind owner type .parameter .type)
    else return id

def typeWidth (owner type : String) : Plan t Nat := do
  let id ← typeRef owner type
  widthOf id

def fieldWidth (owner : String) (field : Field) : Plan t Nat :=
  match field.type with
  | .logic width => do
    let w ← eval owner width
    ofExcept (checkedWidth (qualified owner field.name) w)
  | .named type => typeWidth owner type

def checkedSum (name : String) (n : Nat) : Except Error Nat :=
  if n < wordLimit then .ok n else .error (.widthOverflow name)

/-- The widths of the fields of a struct added to `total`, field by field. -/
def fieldsWidth (owner : String) (total : Nat) : List Field → Plan t Nat
  | [] => .done total
  | field :: rest => do
    let w ← fieldWidth owner field
    let sum ← ofExcept (checkedSum owner (total + w))
    fieldsWidth owner sum rest

/-- The plan of a width.  A parameter is as wide as its value, an enum or a bit vector as
    its expression says, an array as many times its base, and a struct as its fields
    together. -/
def widthRule (id : t.Id) : Plan t Nat :=
  match t.get id with
  | .parameter _ => do
    let n ← valueOf id
    return bitWidth n
  | .enum e => do
    let w ← eval e.name e.width
    ofExcept (checkedWidth e.name w)
  | .typedef d => do
    let w ← eval d.name d.width
    let count ← ofExcept (checkedWidth d.name w)
    match d.base with
    | none => return count
    | some base => do
      let each ← typeWidth d.name base
      ofExcept (checkedSum d.name (each * count))
  | .struct s => fieldsWidth s.name 0 s.fields

def checkedValue (name : String) (value : Int) : Except Error Nat :=
  match word? value with
  | some n => .ok n
  | none => .error (.invalidParameter name value)

def valueRule (id : t.Id) : Plan t Nat :=
  match t.get id with
  | .parameter p => do
    let v ← eval p.name p.value
    ofExcept (checkedValue p.name v)
  | d => .fail (.wrongKind d.name d.name d.kind .parameter)

def rule (key : Key t) : Plan t Nat :=
  match key.quantity with
  | .width => widthRule key.id
  | .value => valueRule key.id

/-! ### Resolved declarations -/

/-- A value that is not negative and fits in `width` bits. -/
def fits (value : Int) (width : Nat) : Bool :=
  decide (0 ≤ value) && (decide (127 ≤ width) ||
      decide (value < ((Nat.pow 2 width : Nat) : Int)))

def enumeratorValue (previous : Option Int) (v : Enumerator) : Int :=
  match v.value, previous with
  | some n, _ => n
  | none, some n => n + 1
  | none, none => 0

/-- The enumerators with their values; each must fit in the width of the enum, and in a
    word. -/
def assignFrom (enum : String) (width : Nat) (previous : Option Int) :
    List Enumerator → Except Error (List Resolved.Enumerator)
  | [] => .ok []
  | v :: rest =>
    let value := enumeratorValue previous v
    match (if fits value width then word? value else none) with
    | none => .error (.enumeratorOverflow enum v.name value width)
    | some n =>
      match assignFrom enum width (some value) rest with
      | .ok more => .ok ({ name := v.name, value := n, docs := v.docs } :: more)
      | .error e => .error e

def enumerators (id : t.Id) : Plan t (List Resolved.Enumerator) :=
  match t.get id with
  | .enum e => do
    let width ← widthOf id
    ofExcept (assignFrom e.name width none e.values)
  | d => .fail (.wrongKind d.name d.name d.kind .enum)

def parameter (id : t.Id) : Plan t Resolved.Parameter := do
  let value ← valueOf id
  return {
    name := (t.get id).name
    value := value
    width := bitWidth value
    countWidth := countWidth value
    widthOne := 1
    docs := (t.get id).docs }

def fieldType (owner : String) : FieldType → Plan t Resolved.FieldType
  | .logic _ => .done .logic
  | .named type => do
    let id ← typeRef owner type
    match (t.get id).kind with
    | .enum => return .enum type
    | .typedef => return .typedef type
    | _ => return .struct type

def field (owner : String) (f : Field) : Plan t Resolved.Field := do
  let type ← fieldType owner f.type
  let width ← fieldWidth owner f
  return { name := f.name, type := type, width := width, docs := f.docs }

def fields (owner : String) : List Field → Plan t (List Resolved.Field)
  | [] => .done []
  | f :: rest => do
    let first ← field owner f
    let more ← fields owner rest
    return first :: more

def item (id : t.Id) : Plan t Resolved.Item :=
  match t.get id with
  | .parameter _ => do
    let p ← parameter id
    return .parameter p
  | .enum e => do
    let width ← widthOf id
    let values ← enumerators id
    return .enum { name := e.name, width := width, values := values, docs := e.docs }
  | .typedef d => do
    let width ← widthOf id
    return .typedef { name := d.name, width := width, base := d.base, docs := d.docs }
  | .struct s => do
    let members ← fields s.name s.fields
    let width ← widthOf id
    return .struct { name := s.name, width := width, fields := members, docs := s.docs }

def items : List t.Id → Plan t (List Resolved.Item)
  | [] => .done []
  | id :: rest => do
    let first ← item id
    let more ← items rest
    return first :: more

end Plan

end WireSchema
