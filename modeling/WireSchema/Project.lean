import WireSchema.Compile
import WireSchema.Files.Discovery

/-!
# Projects

A project is a list of schema files that are compiled independently of each other.  Each
is a package, named after its file, and its artifact is named after the package.
-/

namespace WireSchema

/-- A package at a path: its schema text, or later its artifact. -/
structure PackageFile where
  path : Path
  name : String
  text : String
  deriving DecidableEq, Repr

/-- The name of the package in a file: the file name without its extension. -/
def packageName (p : Path) : Except Error String :=
  match p.stem? with
  | some name => .ok name
  | none => .error (.file (.noPackageName p.text))

/-! ### Reading -/

def PackageFile.read (t : FileTree) (p : Path) : Except Error PackageFile := do
  let name ← packageName p
  let text ← (t.readText p).mapError fun fault => .file (.couldNotRead p.text fault)
  return { path := p, name := name, text := text }

/-- The results of all, or the errors of those that failed. -/
def collect {α : Type} : List (Except Error α) → Except (List Error) (List α)
  | [] => .ok []
  | .ok a :: rest => (collect rest).map (a :: ·)
  | .error e :: rest =>
    match collect rest with
    | .ok _ => .error [e]
    | .error es => .error (e :: es)

def FileTree.readSchemas (t : FileTree) (p : Path) :
    Except (List Error) (List PackageFile) :=
  match t.schemaFiles schemaExtension p with
  | .error fault => .error [.file (.couldNotOpen p.text fault)]
  | .ok [] => .error [.file (.noSchemas p.text)]
  | .ok paths => collect (paths.map (PackageFile.read t))

namespace Project

/-! ### Compiling -/

/-- An error for every file whose package name occurred before; `seen` holds the last path
    of every name. -/
def nameClashes (seen : List (String × Path)) : List PackageFile → List Error
  | [] => []
  | f :: rest =>
    let more := nameClashes ((f.name, f.path) :: seen) rest
    match seen.lookup f.name with
    | some first => .file (.samePackage first.text f.path.text f.name) :: more
    | none => more

def compileFile (options : Options) (f : PackageFile) : Journal Failure PackageFile := do
  Journal.log .info .project ("Compiling " ++ f.path.text)
  let artifact ← compile f.name f.path.text f.text options
  return { f with text := artifact }

/-- The outcome of one file and of those after it: the errors of all, unless an overflow
    ended everything. -/
def merge :
    Except Failure PackageFile → Except Failure (List PackageFile) →
      Except Failure (List PackageFile)
  | .ok a, .ok more => .ok (a :: more)
  | .ok _, .error failure => .error failure
  | .error failure, .ok _ => .error failure
  | .error (.errors es), .error (.errors more) => .error (.errors (es ++ more))
  | .error _, .error _ => .error .overflow

/-- Compile files one after another; only an overflow keeps the later ones from being
    compiled. -/
def compileFiles (options : Options) : List PackageFile → Journal Failure (List PackageFile)
  | [] => .done []
  | f :: rest =>
    let first := compileFile options f
    match first.outcome with
    | .error .overflow => ⟨first.notices, .error .overflow⟩
    | outcome =>
      let more := compileFiles options rest
      ⟨first.notices ++ more.notices, merge outcome more.outcome⟩

def compile (options : Options) (files : List PackageFile) :
    Journal Failure (List PackageFile) :=
  let clashes := nameClashes [] files
  if clashes.isEmpty then compileFiles options files else .fail (.errors clashes)

/-- Where an artifact goes: into the directory `output` under the package's name, if there
    are several artifacts or `output` is a directory, and else to `output` itself. -/
def outputPath (t : FileTree) (output : Path) (name : String) (target : Target)
    (several : Bool) : Path :=
  if several || t.isDir output then output.join ⟨name ++ "." ++ target.extension⟩
    else output

end Project

end WireSchema
