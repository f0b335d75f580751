import WireSchema.Emit.Dump
import WireSchema.Emit.Header
import WireSchema.Resolution

/-!
# Compiling one schema

From the text of a schema to its artifact, which is of the kind that the target says.
-/

namespace WireSchema

/-! ### Targets -/

inductive Target where
  | c
  | json
  deriving DecidableEq, Repr

namespace Target

def extension : Target → String
  | .c => "h"
  | .json => "json"

def ofName? (name : String) : Option Target :=
  if name == "c" then some .c else if name == "json" then some .json else none

def unknownMessage (name : String) : String := "Unknown emit target: " ++ name

/-- The artifact of a package.  Only a C header can fail, when a width is too large to be
    rounded up to bytes. -/
def emit? : Target → Package → Option String
  | .c, p => Header.text? p
  | .json, p => some (Dump.text p)

end Target

/-! ### Compilation -/

structure Options where
  target : Target := .c
  tracing : Tracing := {}
  deriving DecidableEq, Repr

/-- Why a compilation gives no artifact: errors of the input, or a width that no C type
    can store. -/
inductive Failure where
  | errors (errors : List Error)
  | overflow
  deriving DecidableEq, Repr

def overflowMessage : String := "attempt to add with overflow"

def Target.emit (target : Target) (p : Package) : Except Failure String :=
  match target.emit? p with
  | some text => .ok text
  | none => .error .overflow

def Package.ofText (name source text : String) (tracing : Tracing) :
    Journal (List Error) Package := do
  let schema ← Schema.ofText text
  Package.resolve name source schema tracing

/-- The artifact of the schema that a text spells, for the package `name` from `source`. -/
def compile (name source text : String) (options : Options) : Journal Failure String := do
  let p ← (Package.ofText name source text options.tracing).mapError .errors
  Journal.ofExcept (options.target.emit p)

end WireSchema
