import WireSchema.Error
import WireSchema.Yaml.Value

/-!
# Records of a schema

The sections of a schema are lists of records.  A record is a mapping from its field
names, or a list of its fields in order.  The entries are read in the order in which they
are written and the first fault counts; a field that is missing is found after all of
them.
-/

namespace WireSchema

open WireSchema.Yaml (Value)

def Found.ofValue : Value → Found
  | .null => .null
  | .bool b => .bool b
  | .int n => .int n
  | .float x => .float x
  | .text s => .text s
  | .sequence _ => .sequence
  | .mapping _ => .mapping

namespace Record

abbrev Read (α : Type) := Except RecordFault α

def mismatch {α : Type} (value : Value) (wanted : Wanted) : Read α :=
  .error (.wrongType (Found.ofValue value) wanted)

/-! ### Fields -/

def text (value : Value) : Read String :=
  match value with
  | .text s => .ok s
  | _ => mismatch value .text

def integer (value : Value) : Read Int :=
  match value with
  | .int n => if isSigned64 n then .ok n else .error (.outOfRange n)
  | _ => mismatch value .integer

def nullable {α : Type} (read : Value → Read α) (value : Value) : Read (Option α) :=
  match value with
  | .null => .ok none
  | _ => (read value).map some

def list {α : Type} (read : Value → Read α) (value : Value) : Read (List α) :=
  match value with
  | .sequence items => items.mapM read
  | _ => mismatch value .sequence

/-- An expression as it is written: a number, or a text that is still to be parsed. -/
inductive Source where
  | number (n : Int)
  | text (s : String)
  deriving DecidableEq, Repr

def source (value : Value) : Read Source :=
  match value with
  | .int n => if isSigned64 n then .ok (.number n) else .error .noExpression
  | .text s => .ok (.text s)
  | _ => .error .noExpression

/-! ### Reading a record -/

/-- How a record is read: `slots` collects the fields, one at a time, and `finish` takes
    them when they are complete.  `finish` gets the fault to report for a missing field. -/
structure Shape (slots ρ : Type) where
  kind : RecordKind
  empty : slots
  put : slots → String → Value → Read slots
  finish : (String → RecordFault) → slots → Read ρ

namespace Shape

variable {slots ρ : Type}

def putEntry (shape : Shape slots ρ) (s : slots) (entry : Value × Value) : Read slots :=
  match entry.1 with
  | .text name =>
    if shape.kind.fields.contains name then shape.put s name entry.2
    else .error (.unknownField name shape.kind)
  | key => mismatch key .fieldName

def readMapping (shape : Shape slots ρ) (entries : List (Value × Value)) : Read ρ := do
  let s ← entries.foldlM shape.putEntry shape.empty
  shape.finish .missingField s

/-- A record written as a list.  The fault of a missing field is the number of fields
    before it. -/
def readItems (shape : Shape slots ρ) (items : List Value) : Read ρ := do
  let fields := shape.kind.fields
  let s ← (fields.zip items).foldlM (fun s entry => shape.put s entry.1 entry.2) shape.empty
  let record ← shape.finish (fun name => .tooShort (fields.idxOf name) shape.kind) s
  if fields.length < items.length then .error (.tooLong items.length) else .ok record

def read (shape : Shape slots ρ) (value : Value) : Read ρ :=
  match value with
  | .mapping entries => shape.readMapping entries
  | .sequence items => shape.readItems items
  | _ => mismatch value (.record shape.kind)

end Shape

def need {α : Type} (missing : String → RecordFault) (name : String) (slot : Option α) :
    Read α :=
  match slot with
  | some a => .ok a
  | none => .error (missing name)

/-! ### The records -/

structure DocSlots where
  summary : Option String := none
  verbose : Option String := none

def DocSlots.put (s : DocSlots) (name : String) (value : Value) : Read DocSlots :=
  if name == "doc_summary" then do return { s with summary := some (← text value) }
  else do return { s with verbose := ← nullable text value }

/-- The documentation, of which the summary must be there. -/
def DocSlots.finish (missing : String → RecordFault) (s : DocSlots) : Read Docs := do
  return { summary := ← need missing "doc_summary" s.summary, verbose := s.verbose }

structure ParameterRecord where
  name : String
  value : Source
  docs : Docs

structure ParameterSlots where
  name : Option String := none
  value : Option Source := none
  docs : DocSlots := {}

def parameter : Shape ParameterSlots ParameterRecord where
  kind := .parameter
  empty := {}
  put s name value :=
    if name == "name" then do return { s with name := some (← text value) }
    else if name == "value" then do return { s with value := some (← source value) }
    else do return { s with docs := ← s.docs.put name value }
  finish missing s := do
    return {
      name := ← need missing "name" s.name
      value := ← need missing "value" s.value
      docs := ← s.docs.finish missing }

structure EnumeratorSlots where
  name : Option String := none
  value : Option Int := none
  docs : DocSlots := {}

def enumerator : Shape EnumeratorSlots Enumerator where
  kind := .enumerator
  empty := {}
  put s name value :=
    if name == "name" then do return { s with name := some (← text value) }
    else if name == "value" then do return { s with value := ← nullable integer value }
    else do return { s with docs := ← s.docs.put name value }
  finish missing s := do
    return { name := ← need missing "name" s.name, value := s.value,
             docs := ← s.docs.finish missing }

structure EnumRecord where
  name : String
  width : Source
  values : List Enumerator
  docs : Docs

structure EnumSlots where
  name : Option String := none
  width : Option Source := none
  values : List Enumerator := []
  docs : DocSlots := {}

def enum : Shape EnumSlots EnumRecord where
  kind := .enum
  empty := {}
  put s name value :=
    if name == "name" then do return { s with name := some (← text value) }
    else if name == "width" then do return { s with width := some (← source value) }
    else if name == "values" then do
      return { s with values := ← list enumerator.read value }
    else do return { s with docs := ← s.docs.put name value }
  finish missing s := do
    return {
      name := ← need missing "name" s.name
      width := ← need missing "width" s.width
      values := s.values
      docs := ← s.docs.finish missing }

structure TypedefRecord where
  name : String
  base : String
  width : Source
  docs : Docs

structure TypedefSlots where
  name : Option String := none
  base : Option String := none
  width : Option Source := none
  docs : DocSlots := {}

def typedef : Shape TypedefSlots TypedefRecord where
  kind := .typedef
  empty := {}
  put s name value :=
    if name == "name" then do return { s with name := some (← text value) }
    else if name == "base_type" then do return { s with base := some (← text value) }
    else if name == "width" then do return { s with width := some (← source value) }
    else do return { s with docs := ← s.docs.put name value }
  finish missing s := do
    return {
      name := ← need missing "name" s.name
      base := ← need missing "base_type" s.base
      width := ← need missing "width" s.width
      docs := ← s.docs.finish missing }

structure FieldRecord where
  name : String
  type : String
  width : Option Source
  docs : Docs

structure FieldSlots where
  name : Option String := none
  type : Option String := none
  width : Option Source := none
  docs : DocSlots := {}

def field : Shape FieldSlots FieldRecord where
  kind := .field
  empty := {}
  put s name value :=
    if name == "name" then do return { s with name := some (← text value) }
    else if name == "type" then do return { s with type := some (← text value) }
    else if name == "width" then do return { s with width := ← nullable source value }
    else do return { s with docs := ← s.docs.put name value }
  finish missing s := do
    return {
      name := ← need missing "name" s.name
      type := ← need missing "type" s.type
      width := s.width
      docs := ← s.docs.finish missing }

structure StructRecord where
  name : String
  fields : List FieldRecord
  docs : Docs

structure StructSlots where
  name : Option String := none
  fields : List FieldRecord := []
  docs : DocSlots := {}

def struct : Shape StructSlots StructRecord where
  kind := .struct
  empty := {}
  put s name value :=
    if name == "name" then do return { s with name := some (← text value) }
    else if name == "fields" then do return { s with fields := ← list field.read value }
    else do return { s with docs := ← s.docs.put name value }
  finish missing s := do
    return {
      name := ← need missing "name" s.name
      fields := s.fields
      docs := ← s.docs.finish missing }

end Record

end WireSchema
