import WireSchema.Files.Tree

/-!
# Finding schema files

A path stands for one schema file, or for a directory in which all schema files are found,
at any depth.  They come in the order of their paths, compared name by name.

To the search a name is its bytes, which need not be those of a text.  So it is written
for names of any type, with a reading of them as bytes.
-/

namespace WireSchema

def schemaExtension : String := "yis"

def lowerAscii (s : String) : String := String.ofList (s.toList.map Char.toLower)

/-! ### Names as bytes -/

def nameBytes (name : String) : List UInt8 := name.toUTF8.data.toList

def lowerByte (b : UInt8) : UInt8 := if 65 ≤ b ∧ b ≤ 90 then b + 32 else b

/-- What follows the last point of a name, unless the name begins with it. -/
def nameExtension? (name : List UInt8) : Option (List UInt8) :=
  match Text.splitLast? 46 name with
  | some (_ :: _, ext) => some ext
  | _ => none

def hasExtension (ext name : List UInt8) : Bool :=
  (nameExtension? name).map (List.map lowerByte) == some ext

/-! ### The order of paths -/

/-- One list comes before another: at the first place where they differ, or because it ends
    there. -/
def lexLe {α : Type} [DecidableEq α] (le : α → α → Bool) : List α → List α → Bool
  | [], _ => true
  | _ :: _, [] => false
  | a :: as, b :: bs => if a = b then lexLe le as bs else le a b

section Search

variable {ν : Type} [DecidableEq ν] (bytes : ν → List UInt8) (ext : List UInt8)

def nameLe (a b : ν) : Bool := lexLe (fun x y => decide (x ≤ y)) (bytes a) (bytes b)

/-- Paths are compared name by name, and a path comes before those below it. -/
def namesLe : List ν → List ν → Bool := lexLe (nameLe bytes)

/-! ### Searching -/

namespace Entry

mutual

/-- The files below an entry that have the extension.  What is found in a directory is
    sorted, after what is found in the directories in it has been. -/
def search : Entry ν → List (List ν)
  | .file _ => []
  | .dir entries => (searchIn entries).mergeSort (namesLe bytes)

def searchIn : List (ν × Entry ν) → List (List ν)
  | [] => []
  | (name, .file _) :: rest =>
    if hasExtension ext (bytes name) then [name] :: searchIn rest else searchIn rest
  | (name, .dir entries) :: rest => (search (.dir entries)).map (name :: ·) ++ searchIn rest

end

end Entry

end Search

namespace FileTree

def singleFile (ext : String) (p : Path) : Except FileFault (List Path) :=
  if (p.extension?.map lowerAscii) == some ext then .ok [p]
  else .error (.notSchema p.text (p.extension?.getD ""))

def schemaFiles (t : FileTree) (ext : String) (p : Path) : Except FileFault (List Path) :=
  match t.locate p with
  | .ok place =>
    match t.entryOf? place with
    | some (.dir entries) =>
      .ok ((Entry.search nameBytes (nameBytes ext) (.dir entries)).map p.below)
    | _ => singleFile ext p
  | .error _ => singleFile ext p

end FileTree

end WireSchema
