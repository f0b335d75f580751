import WireSchema.Expr
import WireSchema.Text.Upper

/-!
# Declarations

What a schema declares, before any name is resolved: parameters, enums, typedefs and
structs, with their documentation.
-/

namespace WireSchema

structure Docs where
  summary : String := ""
  verbose : Option String := none
  deriving DecidableEq, Repr

inductive Kind where
  | parameter
  | enum
  | typedef
  | struct
  deriving DecidableEq, Repr

def Kind.phrase : Kind → String
  | .parameter => "a parameter"
  | .enum => "an enum"
  | .typedef => "a typedef"
  | .struct => "a struct"

def Kind.title : Kind → String
  | .parameter => "Parameter"
  | .enum => "Enum"
  | .typedef => "Typedef"
  | .struct => "Struct"

structure Parameter where
  name : String
  value : Expr
  docs : Docs := {}
  deriving DecidableEq, Repr

/-- A member of an enum.  Without a value it continues from the member before it. -/
structure Enumerator where
  name : String
  value : Option Int := none
  docs : Docs := {}
  deriving DecidableEq, Repr

structure EnumDef where
  name : String
  width : Expr
  values : List Enumerator
  docs : Docs := {}
  deriving DecidableEq, Repr

/-- A bit vector, or a packed array of `base`, the name of another type. -/
structure Typedef where
  name : String
  base : Option String
  width : Expr
  docs : Docs := {}
  deriving DecidableEq, Repr

/-- What a field holds: a bit vector of a given width, or a named type. -/
inductive FieldType where
  | logic (width : Expr)
  | named (name : String)
  deriving DecidableEq, Repr

structure Field where
  name : String
  type : FieldType
  docs : Docs := {}
  deriving DecidableEq, Repr

structure StructDef where
  name : String
  fields : List Field
  docs : Docs := {}
  deriving DecidableEq, Repr

inductive Decl where
  | parameter (p : Parameter)
  | enum (e : EnumDef)
  | typedef (t : Typedef)
  | struct (s : StructDef)
  deriving DecidableEq, Repr

namespace Decl

def name : Decl → String
  | .parameter p => p.name
  | .enum e => e.name
  | .typedef t => t.name
  | .struct s => s.name

def kind : Decl → Kind
  | .parameter _ => .parameter
  | .enum _ => .enum
  | .typedef _ => .typedef
  | .struct _ => .struct

def docs : Decl → Docs
  | .parameter p => p.docs
  | .enum e => e.docs
  | .typedef t => t.docs
  | .struct s => s.docs

end Decl

def FieldType.reference : FieldType → Option String
  | .logic width => width.reference
  | .named name => some name

/-- The names that a declaration refers to, in the order in which they are written and
    with repeats. -/
def Decl.references : Decl → List String
  | .parameter p => p.value.reference.toList
  | .enum e => e.width.reference.toList
  | .typedef t => t.base.toList ++ t.width.reference.toList
  | .struct s => s.fields.filterMap fun f => f.type.reference

def qualified (owner member : String) : String := owner ++ "." ++ member

/-! ### Names of constants -/

/-- The constant of a declaration's value, and the name of an enum in C. -/
def constantName (name : String) : String := Text.upper name

def widthName (name : String) : String := constantName name ++ "_WIDTH"

/-- The constant of the width that counts up to a parameter. -/
def countWidthName (name : String) : String := constantName name ++ "_COUNT_WIDTH"

def widthOneName (name : String) : String := constantName name ++ "_WIDTH_ONE"

end WireSchema
