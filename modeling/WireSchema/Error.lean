import WireSchema.Decl
import WireSchema.Text.Binary64
import WireSchema.Text.Quoted

/-!
# Errors

Everything that can be wrong with the input, as causes, and the one text of each.
`Error.exitCode` groups them by the stage that finds them.
-/

namespace WireSchema

/-! ### Files -/

inductive OsFault where
  | notFound
  | exists
  | notDirectory
  | isDirectory
  | notText
  deriving DecidableEq, Repr

def OsFault.message : OsFault → String
  | .notFound => "No such file or directory (os error 2)"
  | .exists => "File exists (os error 17)"
  | .notDirectory => "Not a directory (os error 20)"
  | .isDirectory => "Is a directory (os error 21)"
  | .notText => "stream did not contain valid UTF-8"

inductive FileFault where
  | os (fault : OsFault)
  | notSchema (path ext : String)
  | couldNotOpen (path : String) (cause : FileFault)
  | noSchemas (path : String)
  | couldNotRead (path : String) (fault : OsFault)
  | noPackageName (path : String)
  | samePackage (first second name : String)
  deriving DecidableEq, Repr

def FileFault.message : FileFault → String
  | .os fault => fault.message
  | .notSchema path ext =>
    path ++ " is not a schema file, expected extension yis but got " ++ ext
  | .couldNotOpen path cause => "Could not open " ++ path ++ ": " ++ cause.message
  | .noSchemas path => "No schema files found in " ++ path
  | .couldNotRead path fault => "Failed to read " ++ path ++ ": " ++ fault.message
  | .noPackageName path => "Could not extract a package name from " ++ path
  | .samePackage first second name =>
    first ++ " and " ++ second ++ " both compile to package " ++ name

/-! ### Records -/

inductive RecordKind where
  | parameter
  | enum
  | typedef
  | struct
  | enumerator
  | field
  deriving DecidableEq, Repr

def RecordKind.title : RecordKind → String
  | .parameter => "struct RawParameter"
  | .enum => "struct RawEnum"
  | .typedef => "struct RawTypedef"
  | .struct => "struct RawStruct"
  | .enumerator => "struct RawEnumerator"
  | .field => "struct RawField"

/-- The fields of a record, in the order in which a list gives them. -/
def RecordKind.fields : RecordKind → List String
  | .parameter => ["name", "value", "doc_summary", "doc_verbose"]
  | .enum => ["name", "width", "values", "doc_summary", "doc_verbose"]
  | .typedef => ["name", "base_type", "width", "doc_summary", "doc_verbose"]
  | .struct => ["name", "fields", "doc_summary", "doc_verbose"]
  | .enumerator => ["name", "value", "doc_summary", "doc_verbose"]
  | .field => ["name", "type", "width", "doc_summary", "doc_verbose"]

inductive Found where
  | null
  | bool (b : Bool)
  | int (n : Int)
  | float (x : Text.Binary64)
  | text (s : String)
  | sequence
  | mapping
  deriving DecidableEq, Repr

def Found.message : Found → String
  | .null => "unit value"
  | .bool b => "boolean `" ++ (if b then "true" else "false") ++ "`"
  | .int n => "integer `" ++ toString n ++ "`"
  | .float x => "floating point `" ++ x.text ++ "`"
  | .text s => "string " ++ Text.quoted s
  | .sequence => "sequence"
  | .mapping => "map"

inductive Wanted where
  | text
  | integer
  | sequence
  | fieldName
  | record (kind : RecordKind)
  deriving DecidableEq, Repr

def Wanted.message : Wanted → String
  | .text => "a string"
  | .integer => "i64"
  | .sequence => "a sequence"
  | .fieldName => "field identifier"
  | .record kind => kind.title

inductive RecordFault where
  | wrongType (found : Found) (wanted : Wanted)
  | outOfRange (n : Int)
  | tooShort (length : Nat) (kind : RecordKind)
  | tooLong (length : Nat)
  | missingField (name : String)
  | unknownField (name : String) (kind : RecordKind)
  | noExpression
  deriving DecidableEq, Repr

def RecordFault.message : RecordFault → String
  | .wrongType found wanted =>
    "invalid type: " ++ found.message ++ ", expected " ++ wanted.message
  | .outOfRange n => "invalid value: integer `" ++ toString n ++ "`, expected i64"
  | .tooShort length kind =>
    "invalid length " ++ toString length ++ ", expected " ++ kind.title ++ " with " ++
      toString kind.fields.length ++ " elements"
  | .tooLong length =>
    "invalid length " ++ toString length ++ ", expected fewer elements in sequence"
  | .missingField name => "missing field `" ++ name ++ "`"
  | .unknownField name kind =>
    "unknown field `" ++ name ++ "`, expected one of "
      ++ ", ".intercalate (kind.fields.map fun f => "`" ++ f ++ "`")
  | .noExpression => "data did not match any variant of untagged enum RawExpr"

/-! ### Schemas -/

inductive SchemaFault where
  | empty
  | malformed
  | notMapping
  | noSection
  | sectionName
  | unknownSection (name : String)
  | docNotText (name : String)
  | record (fault : RecordFault)
  | notExpression (owner text : String)
  deriving DecidableEq, Repr

def SchemaFault.message : SchemaFault → String
  | .empty => "the schema is empty"
  | .malformed => "<yaml>"
  | .notMapping => "the schema must be a mapping of sections"
  | .noSection => "the schema does not declare any section"
  | .sectionName => "section names must be strings"
  | .unknownSection name => "unknown section " ++ name
  | .docNotText name => name ++ " must be a string"
  | .record fault => fault.message
  | .notExpression owner text => owner ++ ": `" ++ text ++ "` is not a valid expression"

/-! ### Names -/

inductive NameRule where
  | identifier
  | reservedWord
  | cKeyword
  | parameterEnding
  | typedefEnding
  | enumeratorEnding
  | fieldEnding
  | doubleUnderscore
  deriving DecidableEq, Repr

def NameRule.message : NameRule → String
  | .identifier =>
    "names must start with a letter or underscore" ++
      " and contain only letters, digits and underscores"
  | .reservedWord => "it is a reserved word"
  | .cKeyword => "it is a C keyword"
  | .parameterEnding => "parameter names may not end in _E or _T"
  | .typedefEnding => "typedef names may not end in _e"
  | .enumeratorEnding => "enumerator names may not end in _E or _T"
  | .fieldEnding => "field names may not end in _e or _t"
  | .doubleUnderscore => "member names may not contain a double underscore"

inductive Role where
  | parameter
  | enum
  | type
  deriving DecidableEq, Repr

def Role.phrase : Role → String
  | .parameter => "a parameter"
  | .enum => "an enum"
  | .type => "a type"

/-! ### All errors -/

inductive Error where
  | file (fault : FileFault)
  | schema (fault : SchemaFault)
  /-- A name is declared again. -/
  | duplicate (name : String)
  /-- Two declarations lead to one generated name. -/
  | generatedTwice (name first second : String)
  /-- `owner` refers to `name`, which is not declared. -/
  | unknownReference (owner name : String)
  /-- Declarations refer to each other in a circle; the path starts and ends with the same
      name. -/
  | cycle (path : List String)
  | enumeratorOverflow (enum enumerator : String) (value : Int) (width : Nat)
  | invalidParameter (name : String) (value : Int)
  /-- `owner` refers to `name` in a role that its kind does not have. -/
  | wrongKind (owner name : String) (found : Kind) (expected : Role)
  | invalidWidth (name : String) (width : Int)
  | widthOverflow (name : String)
  /-- A field of a named type also has a width. -/
  | invalidField (struct field : String)
  | invalidName (name : String) (rule : NameRule)
  | emptyDeclaration (name : String)
  /-- More computations are nested than there are quantities, which no table brings
      about. -/
  | tooDeep
  deriving DecidableEq, Repr

def Error.message : Error → String
  | .file fault => fault.message
  | .schema fault => "Invalid schema: " ++ fault.message
  | .duplicate name => name ++ " is already declared"
  | .generatedTwice name first second =>
    name ++ " (generated from " ++ first ++ " and " ++ second ++ ") is already declared"
  | .unknownReference owner name =>
    owner ++ " references " ++ name ++ ", which is not declared"
  | .cycle path => "Cyclic dependency: " ++ " -> ".intercalate path
  | .enumeratorOverflow enum enumerator value width =>
    enum ++ "." ++ enumerator ++ " = " ++ toString value ++ " does not fit in the " ++
      toString width ++ " bits of " ++ enum
  | .invalidParameter name value =>
    "Parameter " ++ name ++ " has value " ++ toString value ++
      ", but parameters must not be negative"
  | .wrongKind owner name found expected =>
    owner ++ " references " ++ name ++ " as " ++ expected.phrase ++ ", but " ++ name ++
      " is " ++ found.phrase
  | .invalidWidth name width =>
    name ++ " has an invalid width of " ++ toString width ++ " bits"
  | .widthOverflow name => "The width of " ++ name ++ " is too large to represent"
  | .invalidField struct field =>
    struct ++ "." ++ field ++ " has a named type and may not also declare a width"
  | .invalidName name rule => name ++ " is not a valid name: " ++ rule.message
  | .emptyDeclaration name => name ++ " must declare at least one member"
  | .tooDeep => "The declarations are nested too deeply"

/-- The exit code of the stage that finds the error: 1 files, 2 schema, 3 declarations, 4
    resolution. -/
def Error.exitCode : Error → Nat
  | .file _ => 1
  | .schema _ => 2
  | .invalidField .. => 2
  | .duplicate _ => 3
  | .generatedTwice .. => 3
  | .invalidName .. => 3
  | .emptyDeclaration _ => 3
  | _ => 4

end WireSchema
