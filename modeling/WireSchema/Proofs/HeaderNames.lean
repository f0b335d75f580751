import WireSchema.Proofs.Packages

/-!
# The names of a header do not clash

Registration compares the names that it expects the header to declare, and the header
makes its names from the resolved items.  Reading the text of the header line by line
gives the same names, in another order: so they are pairwise distinct, and C can declare
each of them.  The members of a struct are names of their own and are compared within the
struct.
-/

namespace WireSchema

open Plan

/-! ### The names of an item -/

namespace Resolved.Item

def constantNames : Resolved.Item → List String
  | .parameter q =>
    [constantName q.name, widthName q.name, countWidthName q.name, widthOneName q.name]
  | item => [widthName item.name]

end Resolved.Item

namespace Header

def memberNames (lines : List (List String)) : List String :=
  lines.filterMap fun line => (member? line).map Prod.snd

variable {lines : List (List String)}

theorem filterMap_constantWords (item : Resolved.Item) :
    (constantWords item).filterMap declaredName? = item.constantNames := by
  cases item <;> simp [constantWords, Resolved.Item.constantNames, declaredName?]

theorem memberNames_eq {fields : List Resolved.Field}
    (h : List.Forall₂ DeclaresField fields lines) :
    memberNames lines = fields.map Resolved.Field.name := by
  induction h with
  | nil => rfl
  | cons hfield _ ih =>
    obtain ⟨type, hmember, _⟩ := hfield
    simp only [memberNames, List.map_cons] at ih ⊢
    rw [List.filterMap_cons_some (by rw [hmember]; rfl), ih]

/-- The structs that are read are those of the items, with their fields. -/
theorem structs_eq {items : List Resolved.Item} {constructs : List (List (List String))}
    (h : List.Forall₂ ConstructWords items constructs)
    (hlegible : ∀ item ∈ items, item.Legible) :
    (structs (items.flatMap constantWords ++ constructs.flatten)).map
        (fun found => (found.1, memberNames found.2)) =
      (items.filterMap Resolved.Item.struct?).map
        (fun s => ("_" ++ s.name, s.fields.map Resolved.Field.name)) := by
  refine (map_eq_map_of_forall₂ ((forall₂_structs h hlegible).imp ?_)).symm
  intro s found hfound
  rw [hfound.1, memberNames_eq hfound.2]

end Header

end WireSchema
