import WireSchema.Emit.Comment
import WireSchema.Emit.Storage
import WireSchema.Package

/-!
# C headers

A package as a C header: a constant for every value and width, then an enum, typedef or
struct for every type, both in the order of the package, so that a construct names only
constructs above it.
-/

namespace WireSchema

/-- A line of a header: code, and the text after a comment mark. -/
structure HeaderLine where
  code : String := ""
  comment : Option String := none
  deriving DecidableEq, Repr

def HeaderLine.text (line : HeaderLine) : String :=
  match line.comment with
  | none => line.code
  | some comment => line.code ++ "//" ++ comment

namespace Header

/-! ### Lines -/

def blankLine : HeaderLine := {}

def docLine (indent line : String) : HeaderLine :=
  { code := indent, comment := some (commentBody line) }

theorem text_docLine (indent line : String) :
    (docLine indent line).text = commentLine indent line := rfl

theorem map_text_allLines (docs : Docs) (indent : String) :
    (docs.allLines.map (docLine indent)).map HeaderLine.text = docs.leading indent := by
  simp only [List.map_map, Function.comp_def, text_docLine, Docs.leading]

theorem map_text_verboseLines (docs : Docs) (indent : String) :
    (docs.verboseLines.map (docLine indent)).map HeaderLine.text =
      docs.verboseComments indent := by
  simp only [List.map_map, Function.comp_def, text_docLine, Docs.verboseComments]

def define (name : String) (value : Nat) (note : String) : HeaderLine where
  code := "#define " ++ name ++ " " ++ toString value ++ "           "
  comment := some (" " ++ note)

def guardName (package : String) : String := "__" ++ constantName package ++ "_YIS_H__"

def opening (p : Package) : List HeaderLine :=
  [{ comment := some (" Autogenerated from " ++ p.source ++ " by yisc") },
   { comment := some "" },
   { comment := some " Do Not Edit" },
   { comment := some "" },
   { code := "#ifndef " ++ guardName p.name },
   { code := "#define " ++ guardName p.name },
   blankLine,
   { code := "#include <stdint.h>" },
   blankLine]

/-- The documentation of a package, if it has any, and an empty line. -/
def packageDocs (p : Package) : List HeaderLine :=
  if p.docSummary.isSome || p.docVerbose.isSome then
    let docs : Docs := { summary := p.docSummary.getD "", verbose := p.docVerbose }
    docs.allLines.map (docLine "") ++ [blankLine]
  else []

/-! ### Constants -/

/-- The constants of a parameter: its value, its width, its counting width, and one. -/
def parameterDefines (p : Resolved.Parameter) : List HeaderLine :=
  p.docs.verboseLines.map (docLine "") ++
    [define (constantName p.name) p.value (trailing p.docs.summary),
     define (widthName p.name) p.width ("Width of " ++ constantName p.name),
     define (countWidthName p.name) p.countWidth
       ("Width to count " ++ constantName p.name ++ " items"),
     define (widthOneName p.name) p.widthOne
       (widthName p.name ++ "-wide 1 for incrementers and decrementers")]

/-- The C name of a type: enums are named like constants, and other types keep their
    names. -/
def typeName : Resolved.Item → String
  | .enum e => constantName e.name
  | item => item.name

def defines : Resolved.Item → List HeaderLine
  | .parameter p => parameterDefines p
  | item => [define (widthName item.name) item.width ("Width of " ++ typeName item)]

/-! ### Constructs -/

def enumeratorLines (v : Resolved.Enumerator) : List HeaderLine :=
  v.docs.verboseLines.map (docLine "    ") ++
    [{ code := "    " ++ v.name ++ " = " ++ toString v.value ++ ",   ",
       comment := some (" " ++ trailing v.docs.summary) }]

def enumLines (e : Resolved.Enum) : List HeaderLine :=
  e.docs.allLines.map (docLine "") ++ [{ code := "typedef enum \x7b" }] ++
    e.values.flatMap enumeratorLines ++
    [{ code := "\x7d " ++ constantName e.name ++ ";" }]

def typedefLines? (t : Resolved.Typedef) : Option (List HeaderLine) := do
  let storage ← Storage.ofWidth? t.width
  return t.docs.allLines.map (docLine "") ++
    [{ code := "typedef " ++ storage.declare t.name ++ ";    ",
       comment := some (" " ++ toString t.width ++ " bits wide") }]

theorem typedefLines?_eq_some_iff {t : Resolved.Typedef} {lines : List HeaderLine} :
    typedefLines? t = some lines ↔ ∃ storage, Storage.ofWidth? t.width = some storage ∧
      t.docs.allLines.map (docLine "") ++
        [{ code := "typedef " ++ storage.declare t.name ++ ";    ",
           comment := some (" " ++ toString t.width ++ " bits wide") }] = lines := by
  simp only [typedefLines?, Option.bind_eq_bind, Option.bind_eq_some_iff, Option.pure_def,
    Option.some.injEq]

/-- The C name of the type of a field; bits have none. -/
def fieldTypeName? : Resolved.FieldType → Option String
  | .logic => none
  | .enum type => some (constantName type)
  | .typedef type => some type
  | .struct type => some type

def fieldDeclaration? (f : Resolved.Field) : Option String :=
  match fieldTypeName? f.type with
  | none => (Storage.ofWidth? f.width).map fun storage => storage.declare f.name
  | some type => some (type ++ " " ++ f.name)

def fieldLines? (f : Resolved.Field) : Option (List HeaderLine) := do
  let declaration ← fieldDeclaration? f
  return f.docs.verboseLines.map (docLine "    ") ++
    [{ code := "    " ++ declaration ++ ";    ",
       comment := some (" " ++ toString f.width ++ " bits : " ++ trailing f.docs.summary) }]

theorem fieldLines?_eq_some_iff {f : Resolved.Field} {lines : List HeaderLine} :
    fieldLines? f = some lines ↔ ∃ declaration, fieldDeclaration? f = some declaration ∧
      f.docs.verboseLines.map (docLine "    ") ++
        [{ code := "    " ++ declaration ++ ";    ",
           comment :=
             some (" " ++ toString f.width ++ " bits : " ++ trailing f.docs.summary) }] =
        lines := by
  simp only [fieldLines?, Option.bind_eq_bind, Option.bind_eq_some_iff, Option.pure_def,
    Option.some.injEq]

def structLines? (s : Resolved.Struct) : Option (List HeaderLine) := do
  let fields ← s.fields.mapM fieldLines?
  return s.docs.allLines.map (docLine "") ++
    [{ code := "typedef struct _" ++ s.name ++ " \x7b" }] ++ fields.flatten ++
    [{ code := "\x7d " ++ s.name ++ ";" }]

theorem structLines?_eq_some_iff {s : Resolved.Struct} {lines : List HeaderLine} :
    structLines? s = some lines ↔ ∃ fields, s.fields.mapM fieldLines? = some fields ∧
      s.docs.allLines.map (docLine "") ++
          [{ code := "typedef struct _" ++ s.name ++ " \x7b" }] ++ fields.flatten ++
        [{ code := "\x7d " ++ s.name ++ ";" }] = lines := by
  simp only [structLines?, Option.bind_eq_bind, Option.bind_eq_some_iff, Option.pure_def,
    Option.some.injEq]

/-- The construct of an item with an empty line before it; a parameter has none. -/
def construct? : Resolved.Item → Option (List HeaderLine)
  | .parameter _ => some []
  | .enum e => some (blankLine :: enumLines e)
  | .typedef t => (typedefLines? t).map (blankLine :: ·)
  | .struct s => (structLines? s).map (blankLine :: ·)

/-! ### The header -/

/-- The lines that the items of a package give, and its documentation above them; there
    are none if a width has no storage. -/
def body? (p : Package) : Option (List HeaderLine) := do
  let constructs ← p.items.mapM construct?
  return packageDocs p ++ p.items.flatMap defines ++ constructs.flatten

theorem body?_eq_some_iff {p : Package} {lines : List HeaderLine} :
    body? p = some lines ↔ ∃ constructs, p.items.mapM construct? = some constructs ∧
      packageDocs p ++ p.items.flatMap defines ++ constructs.flatten = lines := by
  simp only [body?, Option.bind_eq_bind, Option.bind_eq_some_iff, Option.pure_def,
    Option.some.injEq]

def endLine (p : Package) : HeaderLine :=
  { code := "#endif ", comment := some (" " ++ guardName p.name) }

def lines? (p : Package) : Option (List HeaderLine) :=
  (body? p).map fun body => opening p ++ body ++ [blankLine, endLine p]

theorem lines?_eq_some_iff {p : Package} {lines : List HeaderLine} :
    lines? p = some lines ↔
      ∃ body, body? p = some body ∧ opening p ++ body ++ [blankLine, endLine p] = lines :=
  Option.map_eq_some_iff

def text? (p : Package) : Option String := do
  let lines ← lines? p
  return String.join (lines.map fun line => line.text ++ "\n")

end Header

end WireSchema
