import WireSchema.CommandLine.Arguments
import WireSchema.Project

/-!
# The command

A run of the compiler over a file tree: read the schemas, compile them, write the artifacts.
-/

namespace WireSchema

/-- What a run leaves behind: its status, what it has printed, and the files. -/
structure Run where
  status : Nat
  output : List String
  errors : List String
  tree : FileTree

namespace Command

/-! ### Printing -/

/-- The lines of a notice; log records up to `level` are shown. -/
def noticeLines (level : Option Level) : Notice → List String
  | .trace line => [line.text]
  | .log severity stage message =>
    if (level.map Level.rank).getD 0 < severity.rank then []
    else
      let place := if severity.rank < Level.debug.rank then "" else "(1) " ++
        stage.title ++ ": "
      Text.splitText '\n' ("[" ++ severity.title ++ "] " ++ place ++ message)

def errorLines (message : String) : List String :=
  Text.splitText '\n' ("Error: " ++ message)

/-! ### Running -/

def fileCode : Nat := 1

def resolutionCode : Nat := 4

def settingCode : Nat := 5

def overflowStatus : Nat := 101

def stop (t : FileTree) (output : List String) (code : Nat) (messages : List String) :
    Run where
  status := 1
  output := output
  errors := (messages ++ [toString code]).flatMap errorLines
  tree := t

def options (a : Arguments) : Except String Options := do
  let resolver ← a.resolverSelection
  let sorter ← a.sorterSelection
  return { target := a.target, tracing := { resolver := resolver, sorter := sorter } }

/-- Make the output directory if there are several artifacts. -/
def prepare (t : FileTree) (output : Path) (several : Bool) :
    Except String Unit × FileTree :=
  if several then
    match t.createAll output with
    | (.ok (), after) => (.ok (), after)
    | (.error fault, after) =>
      (.error ("Could not create " ++ output.text ++ ": " ++ fault.message), after)
  else (.ok (), t)

/-- Write artifacts one after another, up to the first that cannot be written. -/
def writeAll (output : Path) (target : Target) (several : Bool) :
    List PackageFile → FileTree → Except String Unit × FileTree
  | [], t => (.ok (), t)
  | a :: rest, t =>
    let path := Project.outputPath t output a.name target several
    match t.write path a.text.toUTF8 with
    | .ok after => writeAll output target several rest after
    | .error fault => (.error ("Could not write " ++ path.text ++ ": " ++ fault.message), t)

def deliver (t : FileTree) (output : Path) (target : Target)
    (artifacts : List PackageFile) : Except String Unit × FileTree :=
  let several := decide (1 < artifacts.length)
  match prepare t output several with
  | (.error message, after) => (.error message, after)
  | (.ok (), after) => writeAll output target several artifacts after

def run (t : FileTree) (a : Arguments) : Run :=
  match options a with
  | .error message => stop t [] settingCode [message]
  | .ok options =>
    match t.readSchemas a.input with
    | .error es => stop t [] fileCode (es.map Error.message)
    | .ok files =>
      let journal := Project.compile options files
      let output := journal.notices.flatMap (noticeLines a.level)
      match journal.outcome with
      | .error .overflow => ⟨overflowStatus, output, [overflowMessage], t⟩
      | .error (.errors es) =>
        stop t output ((es.head?.map Error.exitCode).getD resolutionCode)
          (es.map Error.message)
      | .ok artifacts =>
        match deliver t a.output a.target artifacts with
        | (.ok (), after) => ⟨0, output, [], after⟩
        | (.error message, after) => stop after output fileCode [message]

end Command

end WireSchema
