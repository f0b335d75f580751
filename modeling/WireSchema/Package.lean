import WireSchema.Decl

/-!
# Packages

A package is a schema in which every width and value is known.  Its items are in an order
in which each comes after the items it refers to.
-/

namespace WireSchema

namespace Resolved

/-- A parameter and the constants derived from its value. -/
structure Parameter where
  name : String
  value : Nat
  /-- The bits that represent the value. -/
  width : Nat
  /-- The bits that count up to the value. -/
  countWidth : Nat
  /-- One, at the parameter's width. -/
  widthOne : Nat
  docs : Docs := {}
  deriving DecidableEq, Repr

structure Enumerator where
  name : String
  value : Nat
  docs : Docs := {}
  deriving DecidableEq, Repr

structure Enum where
  name : String
  width : Nat
  values : List Enumerator
  docs : Docs := {}
  deriving DecidableEq, Repr

/-- A bit vector, or a packed array of `base`. -/
structure Typedef where
  name : String
  width : Nat
  base : Option String := none
  docs : Docs := {}
  deriving DecidableEq, Repr

inductive FieldType where
  | logic
  | enum (name : String)
  | typedef (name : String)
  | struct (name : String)
  deriving DecidableEq, Repr

structure Field where
  name : String
  type : FieldType
  width : Nat
  docs : Docs := {}
  deriving DecidableEq, Repr

/-- A struct; its width is the sum of the widths of its fields. -/
structure Struct where
  name : String
  width : Nat
  fields : List Field
  docs : Docs := {}
  deriving DecidableEq, Repr

inductive Item where
  | parameter (p : Parameter)
  | enum (e : Enum)
  | typedef (t : Typedef)
  | struct (s : Struct)
  deriving DecidableEq, Repr

def Item.name : Item → String
  | .parameter p => p.name
  | .enum e => e.name
  | .typedef t => t.name
  | .struct s => s.name

def Item.width : Item → Nat
  | .parameter p => p.width
  | .enum e => e.width
  | .typedef t => t.width
  | .struct s => s.width

def Item.kind : Item → Kind
  | .parameter _ => .parameter
  | .enum _ => .enum
  | .typedef _ => .typedef
  | .struct _ => .struct

end Resolved

structure Package where
  name : String
  source : String
  docSummary : Option String := none
  docVerbose : Option String := none
  items : List Resolved.Item
  deriving DecidableEq, Repr

end WireSchema
