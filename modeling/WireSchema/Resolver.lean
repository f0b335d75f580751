import WireSchema.Plan
import WireSchema.Selection

/-!
# Resolvers

A resolver answers the questions of plans.  It keeps every quantity that it has computed
and marks those that it is computing; a quantity that is asked for while it is being
computed depends on itself, and the resolver reports the circle.  What has failed is not
kept.
-/

namespace WireSchema

inductive Progress where
  | inProgress
  | done (n : Nat)
  deriving DecidableEq, Repr

structure Resolver (t : SymbolTable) where
  /-- The quantities that are known or being computed. -/
  marks : List (Key t × Progress) := []
  /-- The quantities that are being computed, innermost first. -/
  stack : List (Key t) := []
  /-- The declarations for which trace lines are written. -/
  selection : Selection := .off
  /-- The trace lines, last one first. -/
  trace : List TraceLine := []
  deriving DecidableEq, Repr

namespace Resolver

variable {t : SymbolTable}

/-! ### Marks -/

def mark? (r : Resolver t) (key : Key t) : Option Progress := r.marks.lookup key

def without (marks : List (Key t × Progress)) (key : Key t) : List (Key t × Progress) :=
  marks.filter fun entry => entry.1 != key

def enter (r : Resolver t) (key : Key t) : Resolver t :=
  { r with marks := (key, .inProgress) :: without r.marks key, stack := key :: r.stack }

def finish (r : Resolver t) (key : Key t) (n : Nat) : Resolver t :=
  { r with marks := (key, .done n) :: without r.marks key, stack := r.stack.tail }

def abandon (r : Resolver t) (key : Key t) : Resolver t :=
  { r with marks := without r.marks key, stack := r.stack.tail }

/-! ### Circles -/

/-- The names with runs of one name made single. -/
def dropRepeats : List String → List String
  | [] => []
  | [a] => [a]
  | a :: b :: rest =>
    if a = b then dropRepeats (b :: rest) else a :: dropRepeats (b :: rest)

/-- The circle from a quantity that is being computed back to itself, by the names of its
    declarations. -/
def circle (r : Resolver t) (key : Key t) : Error :=
  let inner := r.stack.takeWhile (· != key)
  let path := (key :: inner.reverse).map fun k => (t.get k.id).name
  .cycle (dropRepeats path ++ [(t.get key.id).name])

/-! ### Answering -/

def traceLine (key : Key t) : TraceLine where
  action := match key.quantity with
    | .width => .widthOf
    | .value => .valueOf
  number := SymbolTable.number key.id
  name := (t.get key.id).name

/-- Write the trace line of a question, if its declaration is selected. -/
def note (r : Resolver t) (key : Key t) : Resolver t :=
  if r.selection.selects (SymbolTable.number key.id)
    then { r with trace := traceLine key :: r.trace } else r

abbrev Answer (t : SymbolTable) (α : Type) := Except Error α × Resolver t

/-- Carry out a plan; `ask` answers its questions. -/
def carryOut {α : Type} (ask : Key t → Resolver t → Answer t Nat) :
    Plan t α → Resolver t → Answer t α
  | .done a, r => (.ok a, r)
  | .fail e, r => (.error e, r)
  | .ask key next, r =>
    match ask key r with
    | (.ok n, r) => carryOut ask (next n) r
    | (.error e, r) => (.error e, r)

/-- Answer a question, with at most `depth` computations inside one another. -/
def query : Nat → Key t → Resolver t → Answer t Nat
  | 0, _, r => (.error .tooDeep, r)
  | depth + 1, key, r =>
    let r := r.note key
    match r.mark? key with
    | some (.done n) => (.ok n, r)
    | some .inProgress => (.error (r.circle key), r)
    | none =>
      match carryOut (query depth) (Plan.rule key) (r.enter key) with
      | (.ok n, r) => (.ok n, r.finish key n)
      | (.error e, r) => (.error e, r.abandon key)

/-- The computations that can be inside one another: one for every quantity, and the one
    that closes a circle. -/
def depthLimit (t : SymbolTable) : Nat := 2 * t.size + 1

def run {α : Type} (r : Resolver t) (plan : Plan t α) : Answer t α :=
  carryOut (query (depthLimit t)) plan r

def traceLines (r : Resolver t) : List TraceLine := r.trace.reverse

end Resolver

end WireSchema
