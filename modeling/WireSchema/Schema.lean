import WireSchema.Journal
import WireSchema.Schema.Record

/-!
# Schemas

A schema is the documentation of a package and its declarations in the order in which they
are written.  The text is a mapping of sections; every section is read on its own and
every fault is reported.
-/

namespace WireSchema

open WireSchema.Yaml (Value)

structure Schema where
  docSummary : Option String := none
  docVerbose : Option String := none
  decls : List Decl := []
  deriving DecidableEq, Repr

namespace Schema

/-! ### From records to declarations -/

def lowerExpr (owner : String) : Record.Source → Except Error Expr
  | .number n => .ok (.literal n)
  | .text s =>
    match Expr.parse s with
    | some e => .ok e
    | none => .error (.schema (.notExpression owner s))

def isLogic (type : String) : Bool := type == "logic" || type == "wire"

def lowerParameter (r : Record.ParameterRecord) : Except Error Decl := do
  return .parameter { name := r.name, value := ← lowerExpr r.name r.value, docs := r.docs }

def lowerEnum (r : Record.EnumRecord) : Except Error Decl := do
  return .enum { name := r.name, width := ← lowerExpr r.name r.width,
                 values := r.values, docs := r.docs }

def lowerTypedef (r : Record.TypedefRecord) : Except Error Decl := do
  return .typedef {
    name := r.name
    base := if isLogic r.base then none else some r.base
    width := ← lowerExpr r.name r.width
    docs := r.docs }

/-- The field of a record of the struct `owner`.  A bit vector without a width has one
    bit, and a named type has no width. -/
def lowerField (owner : String) (r : Record.FieldRecord) : Except Error Field := do
  let type ←
    if isLogic r.type then
      match r.width with
      | some width => (lowerExpr owner width).map FieldType.logic
      | none => .ok (.logic (.literal 1))
    else
      match r.width with
      | some _ => .error (.invalidField owner r.name)
      | none => .ok (.named r.type)
  return { name := r.name, type := type, docs := r.docs }

def lowerStruct (r : Record.StructRecord) : Except Error Decl := do
  return .struct { name := r.name, fields := ← r.fields.mapM (lowerField r.name),
                   docs := r.docs }

/-! ### Sections -/

/-- The declarations that the records give, and the errors of those that give none. -/
def lowerAll {ρ : Type} (lower : ρ → Except Error Decl) : List ρ → List Decl × List Error
  | [] => ([], [])
  | r :: rest =>
    let (decls, errors) := lowerAll lower rest
    match lower r with
    | .ok d => (d :: decls, errors)
    | .error e => (decls, e :: errors)

/-- A section of records.  Null is an empty section; if a record cannot be read, none is
    lowered. -/
def readSection {slots ρ : Type} (shape : Record.Shape slots ρ)
    (lower : ρ → Except Error Decl) (value : Value) : List Decl × List Error :=
  match Record.nullable (Record.list shape.read) value with
  | .ok records => lowerAll lower (records.getD [])
  | .error fault => ([], [.schema (.record fault)])

def readDoc (name : String) : Value → Except Error (Option String)
  | .null => .ok none
  | .text s => .ok (some s)
  | _ => .error (.schema (.docNotText name))

structure Progress where
  schema : Schema := {}
  errors : List Error := []
  /-- A section of declarations has been seen. -/
  declares : Bool := false

namespace Progress

def addDoc (p : Progress) (name : String) (value : Value)
    (put : Schema → Option String → Schema) : Progress :=
  match readDoc name value with
  | .ok doc => { p with schema := put p.schema doc }
  | .error e => { p with errors := p.errors ++ [e] }

def addDecls (p : Progress) (part : List Decl × List Error) : Progress :=
  { schema := { p.schema with decls := p.schema.decls ++ part.1 }
    errors := p.errors ++ part.2
    declares := true }

def addSection (p : Progress) (name : String) (value : Value) : Progress :=
  if name == "doc_summary" then p.addDoc name value fun s doc =>
    { s with docSummary := doc }
  else if name == "doc_verbose" then p.addDoc name value fun s doc =>
    { s with docVerbose := doc }
  else if name == "localparams" then p.addDecls
    (readSection Record.parameter lowerParameter value)
  else if name == "enums" then p.addDecls (readSection Record.enum lowerEnum value)
  else if name == "typedefs" then p.addDecls (readSection Record.typedef lowerTypedef value)
  else if name == "structs" then p.addDecls (readSection Record.struct lowerStruct value)
  else { p with errors := p.errors ++ [.schema (.unknownSection name)] }

/-- Take in an entry of the document; its key must be a text. -/
def addEntry (p : Progress) (entry : Value × Value) : Progress :=
  match entry.1 with
  | .text name => p.addSection name entry.2
  | _ => { p with errors := p.errors ++ [.schema .sectionName] }

def finish (p : Progress) : Except (List Error) Schema :=
  if p.errors.isEmpty then if p.declares then .ok p.schema else .error [.schema .noSection]
  else .error p.errors

end Progress

def sectionNotices (entries : List (Value × Value)) : List Notice :=
  entries.filterMap fun entry =>
    match entry.1 with
    | .text name => some (.log .debug .schema ("Lowering schema section " ++ name))
    | _ => none

def ofValue : Value → Journal (List Error) Schema
  | .mapping entries =>
    ⟨sectionNotices entries, (entries.foldl Progress.addEntry {}).finish⟩
  | .null => .fail [.schema .empty]
  | _ => .fail [.schema .notMapping]

def ofText (text : String) : Journal (List Error) Schema :=
  if (Text.trimChars text.toList).isEmpty then .fail [.schema .empty]
  else
    match Value.ofText? text with
    | some value => ofValue value
    | none => .fail [.schema .malformed]

def ofBytes (bytes : ByteArray) : Journal (List Error) Schema :=
  match String.fromUTF8? bytes with
  | some text => ofText text
  | none => .fail [.file (.os .notText)]

end Schema

end WireSchema
