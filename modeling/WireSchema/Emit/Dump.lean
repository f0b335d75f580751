import WireSchema.Emit.Json
import WireSchema.Package

/-!
# Packages as JSON

Every item is an object that names its kind first.  Documentation and base types that are
absent are left out.
-/

namespace WireSchema

namespace Dump

/-- An entry that may be absent. -/
def optional (key : String) (value : Option String) : List (String × Json) :=
  match value with
  | some s => [(key, .text s)]
  | none => []

def docs (d : Docs) : String × Json :=
  ("docs", .object (("summary", .text d.summary) :: optional "verbose" d.verbose))

def enumerator (v : Resolved.Enumerator) : Json :=
  .object [("name", .text v.name), ("value", .number v.value), docs v.docs]

def fieldType : Resolved.FieldType → Json
  | .logic => .object [("kind", .text "logic")]
  | .enum name => .object [("kind", .text "enum"), ("name", .text name)]
  | .typedef name => .object [("kind", .text "typedef"), ("name", .text name)]
  | .struct name => .object [("kind", .text "struct"), ("name", .text name)]

def field (f : Resolved.Field) : Json :=
  .object [("name", .text f.name), ("type", fieldType f.type), ("width", .number f.width),
    docs f.docs]

def item : Resolved.Item → Json
  | .parameter p =>
    .object [("kind", .text "parameter"), ("name", .text p.name),
      ("value", .number p.value), ("width", .number p.width),
      ("count_width", .number p.countWidth), ("width_one", .number p.widthOne),
      docs p.docs]
  | .enum e =>
    .object [("kind", .text "enum"), ("name", .text e.name), ("width", .number e.width),
      ("values", .list (e.values.map enumerator)), docs e.docs]
  | .typedef t =>
    .object
      ([("kind", .text "typedef"), ("name", .text t.name), ("width", .number t.width)] ++
        optional "base" t.base ++ [docs t.docs])
  | .struct s =>
    .object [("kind", .text "struct"), ("name", .text s.name), ("width", .number s.width),
      ("fields", .list (s.fields.map field)), docs s.docs]

def package (p : Package) : Json :=
  .object ([("name", .text p.name), ("source", .text p.source)] ++
      optional "doc_summary" p.docSummary ++ optional "doc_verbose" p.docVerbose ++
      [("items", .list (p.items.map item))])

def text (p : Package) : String := (package p).render

end Dump

end WireSchema
