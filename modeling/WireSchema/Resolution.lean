import WireSchema.Order
import WireSchema.Resolver
import WireSchema.Schema

/-!
# From schemas to packages

All errors of registration are reported together; resolving and ordering stop at the first
error.
-/

namespace WireSchema

structure Tracing where
  resolver : Selection := .off
  sorter : Selection := .off
  deriving DecidableEq, Repr

def SymbolTable.resolveItems (t : SymbolTable) (selection : Selection) :
    Journal (List Error) (List Resolved.Item) :=
  let (outcome, r) := ({ selection := selection } : Resolver t).run (Plan.items t.ids)
  ⟨r.traceLines.map .trace, outcome.mapError fun e => [e]⟩

def SymbolTable.sort (t : SymbolTable) (selection : Selection) :
    Journal (List Error) (List t.Id) :=
  let (outcome, lines) := t.order selection
  ⟨t.orderNotice :: lines.map .trace, outcome.mapError fun e => [e]⟩

def Package.resolve (name source : String) (schema : Schema) (tracing : Tracing) :
    Journal (List Error) Package := do
  let t ← SymbolTable.register schema.decls
  Journal.log .debug .resolution ("Symbol table for " ++ name ++ ":\n" ++ t.listing)
  let items ← t.resolveItems tracing.resolver
  let order ← t.sort tracing.sorter
  Journal.log .info .resolution ("Resolved " ++ toString t.size ++
      " declarations of " ++ name)
  return {
    name := name
    source := source
    docSummary := schema.docSummary
    docVerbose := schema.docVerbose
    items := order.filterMap fun id => items[id.val]? }

end WireSchema
