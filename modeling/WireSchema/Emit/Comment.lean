import WireSchema.Decl
import WireSchema.Text.Split

/-!
# Documentation as comments

Documentation is written as line comments: after a line of code, where it must fit on one
line, or as whole lines before it.
-/

namespace WireSchema

/-- The documentation on a single line: its lines without the white space around them and
    with one blank between them; empty lines are left out. -/
def trailing (text : String) : String :=
  " ".intercalate (((Text.lines text).map Text.trim).filter fun line => !line.isEmpty)

/-- What follows the comment mark for a line of documentation. -/
def commentBody (line : String) : String :=
  let line := Text.trimEnd line
  if line.isEmpty then "" else " " ++ line

def commentLine (indent line : String) : String := indent ++ "//" ++ commentBody line

namespace Docs

def verboseLines (docs : Docs) : List String :=
  match docs.verbose with
  | some text => Text.lines text
  | none => []

/-- The lines of the summary, then those of the verbose documentation. -/
def allLines (docs : Docs) : List String := Text.lines docs.summary ++ docs.verboseLines

def leading (docs : Docs) (indent : String) : List String :=
  docs.allLines.map (commentLine indent)

def verboseComments (docs : Docs) (indent : String) : List String :=
  docs.verboseLines.map (commentLine indent)

end Docs

end WireSchema
