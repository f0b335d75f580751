import WireSchema.Text.Split

/-!
# Paths

A path is a text; slashes divide it into parts.  Empty parts and points mean nothing,
except that a path must lead to a directory where they end it.
-/

namespace WireSchema

structure Path where
  text : String
  deriving DecidableEq, Repr

namespace Path

def parts (p : Path) : List String := Text.splitText '/' p.text

def isAbsolute (p : Path) : Bool := p.text.toList.head? == some '/'

/-- A part that stays where it is. -/
def isIdle (part : String) : Bool := part == "" || part == "."

/-- The last part that means something, unless it leads up. -/
def fileName? (p : Path) : Option String :=
  match p.parts.reverse.dropWhile isIdle with
  | [] => none
  | last :: _ => if last == ".." then none else some last

/-- A file name as its stem and its extension.  A point at the start divides nothing. -/
def splitName (name : String) : String × Option String :=
  match Text.splitLast? '.' name.toList with
  | none => (name, none)
  | some ([], _) => (name, none)
  | some (stem, ext) => (String.ofList stem, some (String.ofList ext))

def stem? (p : Path) : Option String := p.fileName?.map fun name => (splitName name).1

def extension? (p : Path) : Option String := p.fileName?.bind fun name => (splitName name).2

/-- The path `q`, seen from `p`. -/
def join (p q : Path) : Path :=
  if q.isAbsolute then q
  else if p.text.isEmpty || p.text.toList.getLast? == some '/' then ⟨p.text ++ q.text⟩
  else ⟨p.text ++ "/" ++ q.text⟩

/-- The path of the names below `p`, one inside another. -/
def below (p : Path) (names : List String) : Path := p.join ⟨"/".intercalate names⟩

end Path

end WireSchema
