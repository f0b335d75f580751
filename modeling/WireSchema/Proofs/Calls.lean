import WireSchema.Proofs.Memo

/-!
# Calls on a resolver

From outside, a resolver is asked for widths and values, for the value of an expression,
the width of a field, and for the resolved form of an enum or a parameter.  A call may
fail at any depth, and what it had computed until then is kept for the next one.

The result of a call is nevertheless a function of the table alone: no history of calls
can be told from none, neither by a number nor by the path of a circle.  Every call leaves
the resolver idle (`Idle.after`), and an idle resolver carries out a plan as if it had
kept nothing (`run_spec`).
-/

namespace WireSchema

variable {t : SymbolTable}

/-- What a resolver can be asked from outside. -/
inductive Call (t : SymbolTable) where
  | widthOf (id : t.Id)
  | valueOf (id : t.Id)
  | eval (owner : String) (e : Expr)
  | fieldWidth (owner : String) (field : Field)
  | enumerators (id : t.Id)
  | parameter (id : t.Id)

namespace Call

def Result : Call t → Type
  | .widthOf _ => Nat
  | .valueOf _ => Nat
  | .eval _ _ => Int
  | .fieldWidth _ _ => Nat
  | .enumerators _ => List Resolved.Enumerator
  | .parameter _ => Resolved.Parameter

def plan : (call : Call t) → Plan t call.Result
  | .widthOf id => Plan.widthOf id
  | .valueOf id => Plan.valueOf id
  | .eval owner e => Plan.eval owner e
  | .fieldWidth owner field => Plan.fieldWidth owner field
  | .enumerators id => Plan.enumerators id
  | .parameter id => Plan.parameter id

end Call

namespace Resolver

def result (r : Resolver t) (call : Call t) : Except Error call.Result :=
  (r.run call.plan).1

/-- The resolver after calls, one after another and whether they succeed or not. -/
def after (r : Resolver t) : List (Call t) → Resolver t
  | [] => r
  | call :: rest => (r.run call.plan).2.after rest

/-- A history of calls begins and ends between two plans, whatever becomes of the
    calls. -/
theorem Idle.after {r : Resolver t} (h : Idle r) (history : List (Call t)) :
    Idle (r.after history) := by
  induction history generalizing r with
  | nil => exact h
  | cons call rest ih =>
    have hcall := (run_spec h call.plan).2
    exact ih hcall

/-- Two idle resolvers over one table cannot be told apart. -/
theorem Idle.result_eq {r r' : Resolver t} (h : Idle r) (h' : Idle r') (call : Call t) :
    r.result call = r'.result call := by
  have hr := (run_spec h call.plan).1
  have hr' := (run_spec h' call.plan).1
  exact hr.trans hr'.symm

/-- **What a resolver has kept cannot be seen.**  After any calls, each of which may have
    failed, the next call gives what it gives on a fresh resolver: the same number or
    list, or the same error with the same names, numbers and path. -/
theorem result_after (t : SymbolTable) (selection fresh : Selection)
    (history : List (Call t)) (call : Call t) :
    (({ selection := selection } : Resolver t).after history).result call =
      ({ selection := fresh } : Resolver t).result call := by
  have hidle := (Reached.fresh (t := t) selection).idle
  have hfresh := (Reached.fresh (t := t) fresh).idle
  exact (hidle.after history).result_eq hfresh call

/-- `a` leads into a circle of `b` and `c`.  The circle is reported as it is entered, also
    after it was reported from its other end. -/
example :
    let t : SymbolTable := { decls := [.parameter { name := "a", value := .ref "b" .width },
      .parameter { name := "b", value := .ref "c" .value },
        .parameter { name := "c", value := .ref "b" .value }] }
    let r : Resolver t := after {} [.widthOf ⟨2, by decide⟩, .valueOf ⟨1, by decide⟩]
    (r.run (Plan.valueOf ⟨0, by decide⟩)).1 = .error (.cycle ["b", "c", "b"]) := by
  decide

end Resolver

end WireSchema
