import WireSchema.Error
import WireSchema.Files.Path

/-!
# File trees

A file system as a value: directories and files below a root, and the directory from which
relative paths start.  Operations give what the system answers, and the tree afterwards.
-/

namespace WireSchema

/-- A file with its bytes, or a directory with its entries.  Their names are texts, unless
    it is said what else they are. -/
inductive Entry (ν : Type := String) where
  | file (bytes : ByteArray)
  | dir (entries : List (ν × Entry ν))

namespace Entry

variable {ν : Type}

def isDir : Entry ν → Bool
  | .file _ => false
  | .dir _ => true

def find? [DecidableEq ν] : List ν → Entry ν → Option (Entry ν)
  | [], e => some e
  | _ :: _, .file _ => none
  | name :: rest, .dir entries =>
    match entries.lookup name with
    | some e => find? rest e
    | none => none

/-- The tree with the entry `new` where the names lead.  The directory that holds it must
    be there. -/
def put [DecidableEq ν] (new : Entry ν) : List ν → Entry ν → Entry ν
  | [], _ => new
  | _ :: _, .file bytes => .file bytes
  | name :: rest, .dir entries =>
    match entries.lookup name with
    | some _ =>
      .dir (entries.map fun entry =>
          (entry.1, if entry.1 == name then put new rest entry.2 else entry.2))
    | none => .dir (if rest.isEmpty then entries ++ [(name, new)] else entries)

mutual

/-- The files of an entry: the names that lead to each, and its bytes. -/
def files : Entry ν → List (List ν × ByteArray)
  | .file bytes => [([], bytes)]
  | .dir entries => filesIn entries

def filesIn : List (ν × Entry ν) → List (List ν × ByteArray)
  | [] => []
  | (name, e) :: rest =>
    (files e).map (fun file => (name :: file.1, file.2)) ++ filesIn rest

end

end Entry

/-- A file system: its root, and the names that lead from there to the current directory. -/
structure FileTree where
  root : Entry
  here : List String

namespace FileTree

def empty (here : List String) : FileTree where
  root := here.foldr (fun name e => .dir [(name, e)]) (.dir [])
  here := here

/-- The entry at a place; a place is a list of names from the root, innermost first. -/
def entryOf? (t : FileTree) (place : List String) : Option Entry :=
  t.root.find? place.reverse

def putAt (t : FileTree) (place : List String) (e : Entry) : FileTree :=
  { t with root := Entry.put e place.reverse t.root }

/-! ### Following paths -/

def walk (t : FileTree) : List String → List String → Except OsFault (List String)
  | place, [] => .ok place
  | place, part :: rest =>
    match t.entryOf? place with
    | some (.dir entries) =>
      if Path.isIdle part then walk t place rest
      else if part == ".." then walk t place.tail rest
      else if (entries.lookup part).isSome then walk t (part :: place) rest
      else .error .notFound
    | some (.file _) => .error .notDirectory
    | none => .error .notFound

def start (t : FileTree) (p : Path) : List String :=
  if p.isAbsolute then [] else t.here.reverse

def locate (t : FileTree) (p : Path) : Except OsFault (List String) :=
  if p.text.isEmpty then .error .notFound else t.walk (t.start p) p.parts

def isDir (t : FileTree) (p : Path) : Bool :=
  match t.locate p with
  | .ok place => (t.entryOf? place).any Entry.isDir
  | .error _ => false

/-! ### Reading -/

def read (t : FileTree) (p : Path) : Except OsFault ByteArray :=
  match t.locate p with
  | .error fault => .error fault
  | .ok place =>
    match t.entryOf? place with
    | some (.file bytes) => .ok bytes
    | some (.dir _) => .error .isDirectory
    | none => .error .notFound

def readText (t : FileTree) (p : Path) : Except OsFault String :=
  match t.read p with
  | .error fault => .error fault
  | .ok bytes =>
    match String.fromUTF8? bytes with
    | some text => .ok text
    | none => .error .notText

/-! ### Writing -/

def directory (t : FileTree) (place parts : List String) :
    Except OsFault (List String × List (String × Entry)) :=
  match t.walk place parts with
  | .error fault => .error fault
  | .ok found =>
    match t.entryOf? found with
    | some (.dir entries) => .ok (found, entries)
    | some (.file _) => .error .notDirectory
    | none => .error .notFound

/-- The part names a new entry: it neither stays nor leads up. -/
def isName (part : String) : Bool := !(Path.isIdle part || part == "..")

/-- Write a file, new or in place of an old one.  A path that ends in a slash names no
    file. -/
def write (t : FileTree) (p : Path) (bytes : ByteArray) : Except OsFault FileTree :=
  if p.text.isEmpty then .error .notFound
  else
    match p.parts.reverse.dropWhile (· == "") with
    | [] => .error .isDirectory
    | last :: above =>
      match t.directory (t.start p) above.reverse with
      | .error fault => .error fault
      | .ok (place, entries) =>
        if !isName last || p.parts.getLast? == some "" then .error .isDirectory
        else
          match entries.lookup last with
          | some (.dir _) => .error .isDirectory
          | _ => .ok (t.putAt (last :: place) (.file bytes))

/-! ### Making directories -/

def makeDir (t : FileTree) (place : List String) : List String → Except OsFault FileTree
  | [] => .error .exists
  | last :: above =>
    match t.directory place above.reverse with
    | .error fault => .error fault
    | .ok (found, entries) =>
      if isName last && (entries.lookup last).isNone then
        .ok (t.putAt (last :: found) (.dir []))
      else .error .exists

abbrev Made := Except OsFault Unit × FileTree

/-- A fault in making a directory that is there already is none. -/
def settle (t : FileTree) (place parts : List String) (fault : OsFault) : Made :=
  match t.directory place parts.reverse with
  | .ok _ => (.ok (), t)
  | .error _ => (.error fault, t)

/-- Make a directory; where it has no place yet, `prepare` comes first. -/
def ensureDir (place parts : List String) (prepare : FileTree → Made) (t : FileTree) :
    Made :=
  match t.makeDir place parts with
  | .ok after => (.ok (), after)
  | .error .notFound =>
    match prepare t with
    | (.error fault, after) => (.error fault, after)
    | (.ok (), after) =>
      match after.makeDir place parts with
      | .ok final => (.ok (), final)
      | .error fault => after.settle place parts fault
  | .error fault => t.settle place parts fault

def ensureDirs (place : List String) : List String → FileTree → Made
  | [], t => (.ok (), t)
  | name :: above, t => ensureDir place (name :: above) (ensureDirs place above) t

def createAll (t : FileTree) (p : Path) : Made :=
  if p.text.isEmpty then (.ok (), t)
  else
    let parts := p.parts.reverse.dropWhile (· == "")
    let names := parts.filter fun part => !Path.isIdle part
    ensureDir (t.start p) parts (ensureDirs (t.start p) names.tail) t

def install (t : FileTree) (p : Path) (bytes : ByteArray) : Except OsFault FileTree :=
  let names := p.parts.reverse.filter fun part => !Path.isIdle part
  match ensureDirs (t.start p) names.tail t with
  | (.ok (), after) => after.write p bytes
  | (.error fault, _) => .error fault

def filesHere (t : FileTree) : List (List String × ByteArray) :=
  match t.entryOf? t.here.reverse with
  | some e => e.files
  | none => []

def changedSince (t before : FileTree) : List (List String × ByteArray) :=
  t.filesHere.filter fun file => (before.filesHere.lookup file.1).all fun old =>
    old.data != file.2.data

end FileTree

end WireSchema
