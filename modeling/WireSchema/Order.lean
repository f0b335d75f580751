import WireSchema.Selection
import WireSchema.SymbolTable

/-!
# Orders of declarations

The declarations of a table in an order in which each comes after everything it refers to.
They are visited depth first, in the order of the table, and what a declaration refers to
in the order in which it is written; so one declaration overtakes another only if that one
or an earlier one needs it.

Colours tell how far the visit of a declaration has come.  One that is met again while it
is being visited closes a circle, which is cut out of the path.
-/

namespace WireSchema

inductive Colour where
  /-- Not visited yet. -/
  | white
  /-- Being visited. -/
  | grey
  /-- Visited and placed. -/
  | black
  deriving DecidableEq, Repr

variable {t : SymbolTable} {σ : Type}

def visitNames (visit : t.Id → σ → Except Error Unit × σ) (owner : String) :
    List String → σ → Except Error Unit × σ
  | [], s => (.ok (), s)
  | name :: rest, s =>
    match t.resolveRef owner name with
    | .error e => (.error e, s)
    | .ok id =>
      match visit id s with
      | (.ok (), s) => visitNames visit owner rest s
      | (.error e, s) => (.error e, s)

def visitEach (visit : t.Id → σ → Except Error Unit × σ) :
    List t.Id → σ → Except Error Unit × σ
  | [], s => (.ok (), s)
  | id :: rest, s =>
    match visit id s with
    | (.ok (), s) => visitEach visit rest s
    | (.error e, s) => (.error e, s)

structure Search (t : SymbolTable) where
  colours : Vector Colour t.decls.length := .replicate t.decls.length .white
  /-- The declarations that are being visited, outermost one first. -/
  path : List t.Id := []
  /-- The declarations that have been placed. -/
  order : List t.Id := []
  /-- The declarations for which trace lines are written. -/
  selection : Selection := .off
  /-- The trace lines, last one first. -/
  trace : List TraceLine := []

namespace Search

/-- The circle that a declaration on the path closes. -/
def circle (c : Search t) (id : t.Id) : Error :=
  let start := (c.path.findIdx? (· == id)).getD 0
  .cycle ((c.path.drop start ++ [id]).map fun i => (t.get i).name)

/-- Write the trace line of a visit, if its declaration is selected. -/
def note (c : Search t) (id : t.Id) : Search t :=
  if c.selection.selects (SymbolTable.number id) then
    { c with trace := ⟨.visit, SymbolTable.number id, (t.get id).name⟩ :: c.trace }
  else c

def colour (c : Search t) (id : t.Id) : Colour := c.colours.get id

def enter (c : Search t) (id : t.Id) : Search t :=
  { c with colours := c.colours.set id.val .grey id.isLt, path := c.path ++ [id] }

def leave (c : Search t) (id : t.Id) : Search t :=
  { c with
    colours := c.colours.set id.val .black id.isLt
    path := c.path.dropLast
    order := c.order ++ [id] }

/-- Visit a declaration, with at most `depth` visits inside one another. -/
def visit : Nat → t.Id → Search t → Except Error Unit × Search t
  | 0, _, c => (.error .tooDeep, c)
  | depth + 1, id, c =>
    match c.colour id with
    | .black => (.ok (), c)
    | .grey => (.error (c.circle id), c)
    | .white =>
      let d := t.get id
      match visitNames (visit depth) d.name d.references ((c.note id).enter id) with
      | (.ok (), c) => (.ok (), c.leave id)
      | (.error e, c) => (.error e, c)

end Search

namespace SymbolTable

def order (t : SymbolTable) (selection : Selection) :
    Except Error (List t.Id) × List TraceLine :=
  match visitEach (Search.visit (t.size + 1)) t.ids { selection := selection } with
  | (.ok (), c) => (.ok c.order, c.trace.reverse)
  | (.error e, c) => (.error e, c.trace.reverse)

def orderNotice (t : SymbolTable) : Notice :=
  .log .debug .order ("Sorting " ++ toString t.size ++ " declarations")

end SymbolTable

end WireSchema
