import WireSchema.CommandLine.Command

/-!
# The program

Reads the files that a command line names into a file tree, runs the command on it, and
writes what has changed.
-/

namespace WireSchema.Program

/-- The tree with the directory or the file at a path, and nothing below it. -/
def loadEntry (t : FileTree) (path : String) : IO FileTree := do
  let place := (← IO.currentDir) / path
  if ← place.isDir then return (t.createAll ⟨path⟩).2
  else if ← place.pathExists then
    return ((t.install ⟨path⟩ (← IO.FS.readBinFile place)).toOption).getD t
  else return t

def entries (path : String) : IO (List String) := do
  let place := (← IO.currentDir) / path
  if ← place.isDir then
    return (← place.readDir).toList.map fun entry => path ++ "/" ++ entry.fileName
  else return []

partial def load (t : FileTree) (path : String) : IO FileTree := do
  (← entries path).foldlM load (← loadEntry t path)

/-- The tree with the directories and files along a path, and the entries of the directory
    where it ends. -/
def loadAlong (t : FileTree) (path : String) : IO FileTree := do
  let parts := (Path.mk path).parts
  let along := (List.range parts.length).map fun n => "/".intercalate (parts.take (n + 1))
  (along ++ (← entries path)).foldlM loadEntry t

def store (before after : FileTree) : IO Unit := do
  for (names, bytes) in after.root.files do
    if ((before.root.files.lookup names).all fun old => old.data != bytes.data) then
      let place := (← IO.currentDir) / ("/" ++ "/".intercalate names)
      if let some above := place.parent then IO.FS.createDirAll above
      IO.FS.writeBinFile place bytes

def usageText : UsageFault → String
  | .missingRequired => "error: --input and --output are required"
  | .invalidValue => "error: a value is not among those that its option can have"
  | .emptyValue => "error: an option has no value"
  | .unknownArgument => "error: unknown argument"
  | .repeatedUse => "error: an option is given twice"
  | .help =>
    "usage: yisc --input PATH --output PATH [--emit c|json] [--log-level LEVEL]" ++
      " [--trace-resolver SELECTION] [--trace-sorter SELECTION]"
  | .version => "YIS Compiler 0.1.0"

def run (words : List String) : IO UInt32 := do
  match Arguments.parse words with
  | .error .help => do
    IO.println (usageText .help)
    return 0
  | .error .version => do
    IO.println (usageText .version)
    return 0
  | .error fault => do
    IO.eprintln (usageText fault)
    return 1
  | .ok a => do
    let here := (Path.mk (toString (← IO.currentDir))).parts.filter fun part =>
      !Path.isIdle part
    let before ← loadAlong (← load (FileTree.empty here) a.input.text) a.output.text
    let r := Command.run before a
    for line in r.output do IO.println line
    for line in r.errors do IO.eprintln line
    store before r.tree
    return r.status.toUInt32

end WireSchema.Program

def main (words : List String) : IO UInt32 := WireSchema.Program.run words
