import WireSchema.Resolution

/-!
# Sessions

A session builds a symbol table step by step, freezes it, and then answers questions about
it.  One resolver lives from the moment the table is frozen, so what it has computed for
one question serves the next.
-/

namespace WireSchema

/-- A session: a table that still grows, or a frozen one with its resolver. -/
inductive Session where
  | growing (t : SymbolTable)
  | frozen (t : SymbolTable) (resolver : Resolver t) (sorterSelection : Selection)

inductive Request where
  | declare (d : Decl)
  | freeze
  /-- Register a whole list and freeze it. -/
  | load (decls : List Decl)
  | lookup (name : String)
  | get (name : String)
  | size
  | listing
  | entries
  | resolveRef (owner name : String)
  | widthOf (name : String)
  | valueOf (name : String)
  | eval (owner : String) (e : Expr)
  | fieldWidth (owner : String) (field : Field)
  | enumerators (name : String)
  | parameter (name : String)
  | order
  /-- Choose for which declarations the resolver and later sorters write trace lines. -/
  | trace (resolver sorter : Selection)
  deriving Repr

inductive Reply where
  | done
  | number (n : Nat)
  | found (n : Option Nat)
  | decl (d : Option Decl)
  | size (n : Nat)
  | text (s : String)
  | entries (names : List String)
  | integer (n : Int)
  | enumerators (values : List Resolved.Enumerator)
  | parameter (p : Resolved.Parameter)
  | names (names : List String)
  | error (e : Error)
  | errors (es : List Error)
  /-- The request does not fit the state of the table. -/
  | unavailable
  deriving DecidableEq, Repr

/-- The session after a request, the reply, and the notices written meanwhile. -/
structure Step where
  session : Session
  reply : Reply
  notices : List Notice := []

namespace Session

def replyOf {α : Type} (reply : α → Reply) : Except Error α → Reply
  | .ok a => reply a
  | .error e => .error e

/-- Questions that every table answers. -/
def inspect? (t : SymbolTable) : Request → Option Reply
  | .lookup name => some (.found ((t.lookup name).map SymbolTable.number))
  | .get name => some (.decl ((t.lookup name).map t.get))
  | .size => some (.size t.size)
  | .listing => some (.text t.listing)
  | .entries => some (.entries (t.decls.map (·.name)))
  | _ => none

def stepGrowing (t : SymbolTable) (request : Request) : Step :=
  match request with
  | .declare d =>
    let called := t.declare d
    ⟨.growing called.2, replyOf (fun position => .number (position + 1)) called.1, []⟩
  | .freeze => ⟨.frozen t {} .off, .done, []⟩
  | .load decls =>
    let journal := SymbolTable.register decls
    match journal.outcome with
    | .ok loaded => ⟨.frozen loaded {} .off, .done, journal.notices⟩
    | .error es => ⟨.growing t, .errors es, journal.notices⟩
  | _ => ⟨.growing t, (inspect? t request).getD .unavailable, []⟩

def runPlan {α : Type} (t : SymbolTable) (r : Resolver t) (sorter : Selection)
    (plan : Plan t α) (reply : α → Reply) : Step :=
  let (outcome, after) := ({ r with trace := [] } : Resolver t).run plan
  ⟨.frozen t after sorter, replyOf reply outcome, after.traceLines.map .trace⟩

def runNamed {α : Type} (t : SymbolTable) (r : Resolver t) (sorter : Selection)
    (name : String) (plan : t.Id → Plan t α) (reply : α → Reply) : Step :=
  runPlan t r sorter (Plan.ofExcept (t.resolveRef name name) >>= plan) reply

def stepFrozen (t : SymbolTable) (r : Resolver t) (sorter : Selection)
    (request : Request) : Step :=
  match request with
  | .resolveRef owner name =>
    ⟨.frozen t r sorter, replyOf (fun id => .number (SymbolTable.number id))
        (t.resolveRef owner name), []⟩
  | .widthOf name => runNamed t r sorter name Plan.widthOf .number
  | .valueOf name => runNamed t r sorter name Plan.valueOf .number
  | .eval owner e => runPlan t r sorter (Plan.eval owner e) .integer
  | .fieldWidth owner field => runPlan t r sorter (Plan.fieldWidth owner field) .number
  | .enumerators name => runNamed t r sorter name Plan.enumerators .enumerators
  | .parameter name => runNamed t r sorter name Plan.parameter .parameter
  | .order =>
    let (outcome, lines) := t.order sorter
    ⟨.frozen t r sorter, replyOf (fun ids => .names (ids.map fun id => (t.get id).name))
        outcome, t.orderNotice :: lines.map .trace⟩
  | .trace resolver later => ⟨.frozen t { r with selection := resolver } later, .done, []⟩
  | _ => ⟨.frozen t r sorter, (inspect? t request).getD .unavailable, []⟩

def step : Session → Request → Step
  | .growing t, request => stepGrowing t request
  | .frozen t r sorter, request => stepFrozen t r sorter request

def run (s : Session) : List Request → List Step
  | [] => []
  | request :: rest =>
    let first := s.step request
    first :: first.session.run rest

end Session

end WireSchema
