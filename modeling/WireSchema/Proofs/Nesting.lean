import Mathlib.Algebra.BigOperators.Group.Finset.Piecewise
import Mathlib.Data.Fintype.Prod
import WireSchema.Proofs.Moments
import WireSchema.Proofs.Tours

/-!
# How deep computations and visits are inside one another

The resolver and the sorter follow the references of a table, which may lead anywhere and
back again.  What bounds them is what they mark.  A computation begins with a quantity
that has no mark and gives it one, and a visit begins with a declaration that is neither
placed nor on the path.  Marks are taken back when a computation fails, so their number
may go up and down; but along the stack it only grows, because what is done stays done
(`card_marks`).

So computations are never deeper inside one another than there are quantities, and visits
never deeper than there are declarations.  Every call returns and every sort ends,
although nothing in `Moment.next` and `Tour.next` limits them.
-/

namespace WireSchema

variable {t : SymbolTable}

/-! ### Quantities -/

instance : Fintype Quantity where
  elems := {.width, .value}
  complete := by
    intro q
    cases q <;> decide

def Key.equivProd (t : SymbolTable) : t.Id × Quantity ≃ Key t where
  toFun pair := ⟨pair.1, pair.2⟩
  invFun key := (key.id, key.quantity)
  left_inv _ := rfl
  right_inv _ := rfl

instance : Fintype (Key t) := Fintype.ofEquiv _ (Key.equivProd t)

theorem Key.card : Fintype.card (Key t) = 2 * t.size := by
  rw [← Fintype.card_congr (Key.equivProd t), Fintype.card_prod, Fintype.card_fin,
      Nat.mul_comm]
  rfl

namespace Resolver

def unmarked (r : Resolver t) : Nat :=
  (Finset.univ.filter fun key => r.mark? key = none).card

def isDone (r : Resolver t) (key : Key t) : Bool :=
  match r.mark? key with
  | some (.done _) => true
  | _ => false

theorem isDone_iff {r : Resolver t} {key : Key t} :
    r.isDone key = true ↔ ∃ n, r.mark? key = some (.done n) := by
  unfold isDone
  rcases r.mark? key with _ | (_ | n) <;> simp

/-- A quantity has no mark, is on the stack, or is done. -/
theorem card_marks {r : Resolver t} (hr : r.Trusted) :
    r.unmarked + r.stack.length + (Finset.univ.filter fun key => r.isDone key =
        true).card = 2 * t.size := by
  have hstack : r.stack.length =
      (Finset.univ.filter fun key => r.mark? key = some .inProgress).card := by
    rw [← List.toFinset_card_of_nodup hr.nodup]
    congr 1
    ext key
    simp [hr.inProgress_iff]
  have hone : ∀ key : Key t, ((if r.mark? key = none then 1 else 0) +
        if r.mark? key = some .inProgress then 1 else 0) +
      (if r.isDone key = true then 1 else 0) = 1 := by
    intro key
    unfold isDone
    rcases r.mark? key with _ | (_ | n) <;> simp
  rw [hstack, unmarked, Finset.card_filter, Finset.card_filter, Finset.card_filter,
      ← Finset.sum_add_distrib, ← Finset.sum_add_distrib,
      Finset.sum_congr rfl fun key _ => hone key, ← Finset.card_eq_sum_ones,
      Finset.card_univ, Key.card]

end Resolver

/-! ### Calls -/

namespace Moment

variable {first r r' : Resolver t} {selection : Selection} {calls : List (Call t)}

/-- A call that comes to its end returns. -/
theorem comes_returned {call : Call t} {work last : Work t call.Result}
    (h : Comes Work.advance (work, r) (last, r')) {outcome : Except Error call.Result}
    (hlast : last.outcome? = some outcome) (later : List (Call t))
    (returned : List (Returned t)) :
    Comes next ⟨r, some ⟨call, work⟩, later, returned⟩
      ⟨r', none, later, returned ++ [⟨call, outcome⟩]⟩ := by
  obtain ⟨n, hn⟩ := h
  induction n generalizing work r with
  | zero =>
    obtain ⟨rfl, rfl⟩ := Prod.mk.inj hn
    rw [← next_of_ended hlast]
    exact Comes.single next _
  | succ n ih =>
    rw [Function.iterate_succ_apply] at hn
    cases hwork : work.outcome? with
    | none =>
      have hstep := Comes.single next ⟨r, some ⟨call, work⟩, later, returned⟩
      rw [next_of_running hwork] at hstep
      exact hstep.trans (ih hn)
    | some _ =>
      rw [Work.advance_of_outcome? hwork] at hn
      exact ih hn

theorem comes_over (hfirst : first.Idle) (calls : List (Call t))
    (returned : List (Returned t)) :
    Comes next ⟨first, none, calls, returned⟩
      ⟨first.after calls, none, [], returned ++ first.results calls⟩ := by
  induction calls generalizing first returned with
  | nil =>
    rw [Resolver.results, List.append_nil]
    exact Comes.refl next _
  | cons call later ih =>
    have hcall := comes_returned (Work.comes_run hfirst call.plan) (Work.outcome?_outer _)
      later returned
    have hlater := ih (Resolver.run_spec hfirst call.plan).2
      (returned ++ [⟨call, first.result call⟩])
    rw [List.append_assoc, List.singleton_append] at hlater
    exact (Comes.single next _).trans (hcall.trans hlater)

theorem stack_after (selection : Selection) (calls : List (Call t)) (n : Nat) :
    (after selection calls n).resolver.Trusted ∧
      (after selection calls n).resolver.stack = (after selection calls n).computing :=
  (accounts_after selection calls n).trusted (Resolver.Reached.fresh selection).idle

theorem length_computing_le (selection : Selection) (calls : List (Call t)) (n : Nat) :
    (after selection calls n).computing.length ≤ 2 * t.size := by
  obtain ⟨htrusted, hstack⟩ := stack_after selection calls n
  rw [← hstack]
  exact length_le_keys htrusted.nodup

/-- Deeper inside, later on, fewer quantities are without a mark. -/
theorem unmarked_lt {n later : Nat} (hle : n ≤ later)
    (hdeeper : (after selection calls n).computing.length <
      (after selection calls later).computing.length) :
    (after selection calls later).resolver.unmarked <
      (after selection calls n).resolver.unmarked := by
  obtain ⟨hbefore, hstack⟩ := stack_after selection calls n
  obtain ⟨hafter, hstack'⟩ := stack_after selection calls later
  have hdone : (Finset.univ.filter fun key => (after selection calls n).resolver.isDone
        key = true).card ≤ (Finset.univ.filter fun key =>
        (after selection calls later).resolver.isDone key = true).card := by
    apply Finset.card_le_card
    apply Finset.monotone_filter_right
    intro key _ hkey
    obtain ⟨v, hv⟩ := Resolver.isDone_iff.mp hkey
    exact Resolver.isDone_iff.mpr ⟨v, done_after hle hv⟩
  have hcount := Resolver.card_marks hbefore
  have hcount' := Resolver.card_marks hafter
  rw [hstack] at hcount
  rw [hstack'] at hcount'
  omega

end Moment

/-! ### Sorts -/

namespace Sorter.Tour

/-- The number of declarations that are neither placed nor being visited. -/
def white (w : Tour t) : Nat :=
  (Finset.univ.filter fun id => id ∉ w.path ++ w.sorter.placed).card

theorem card_colors {w : Tour t} (h : w.Tidy) :
    w.white + (w.path.length + w.sorter.placed.length) = t.size := by
  have hrest : (w.path ++ w.sorter.placed).length =
      (Finset.univ.filter fun id => id ∈ w.path ++ w.sorter.placed).card := by
    rw [← List.toFinset_card_of_nodup h]
    congr 1
    ext id
    simp
  rw [← List.length_append, hrest, white, Nat.add_comm,
      Finset.card_filter_add_card_filter_not, Finset.card_univ, Fintype.card_fin]
  rfl

theorem length_path_le (t : SymbolTable) (selection : Selection) (n : Nat) :
    (after t selection n).path.length ≤ t.size := by
  have hcount := card_colors (tidy_after t selection n)
  omega

/-- Deeper inside, later on, fewer declarations are untouched. -/
theorem white_lt {selection : Selection} {n later : Nat} (hle : n ≤ later)
    (hdeeper : (after t selection n).path.length < (after t selection later).path.length) :
    (after t selection later).white < (after t selection n).white := by
  have hcount := card_colors (tidy_after t selection n)
  have hcount' := card_colors (tidy_after t selection later)
  have hplaced := length_placed_after (t := t) selection hle
  omega

end Sorter.Tour

/-- **Resolution and sorting terminate on every table**, whatever its references are.  All
    calls return, with the results of `Resolver.result`, and every sort ends, with the
    result of `SymbolTable.order`.  At no moment are more computations inside one another
    than there are quantities, or more visits than there are declarations; and wherever
    more are inside one another than at an earlier moment, fewer quantities are without a
    mark, or fewer declarations untouched. -/
theorem resolution_terminates (t : SymbolTable) (selection : Selection)
    (calls : List (Call t)) :
    (∃ n, Moment.after selection calls n =
        ⟨({ selection := selection } : Resolver t).after calls, none, [],
          ({ selection := selection } : Resolver t).results calls⟩) ∧
      (∀ n, (Moment.after selection calls n).computing.length ≤ 2 * t.size) ∧
      (∀ n later, n ≤ later →
        (Moment.after selection calls n).computing.length <
          (Moment.after selection calls later).computing.length →
        (Moment.after selection calls later).resolver.unmarked <
          (Moment.after selection calls n).resolver.unmarked) ∧
      (∃ n outcome, (Sorter.Tour.after t selection n).outcome = some outcome ∧
        (t.order selection).1 = outcome.map fun _ =>
          (Sorter.Tour.after t selection n).sorter.placed.reverse) ∧
      (∀ n, (Sorter.Tour.after t selection n).path.length ≤ t.size) ∧
      ∀ n later, n ≤ later →
        (Sorter.Tour.after t selection n).path.length <
          (Sorter.Tour.after t selection later).path.length →
        (Sorter.Tour.after t selection later).white <
          (Sorter.Tour.after t selection n).white := by
  refine ⟨?_, Moment.length_computing_le selection calls, ?_,
      Sorter.Tour.exists_end t selection, Sorter.Tour.length_path_le t selection, ?_⟩
  · exact Moment.comes_over (Resolver.Reached.fresh selection).idle calls []
  · intro n later hle hdeeper
    exact Moment.unmarked_lt hle hdeeper
  · intro n later hle hdeeper
    exact Sorter.Tour.white_lt hle hdeeper

/-- In a table with a struct that holds itself, the width of the struct needs a parameter,
    and the sorter meets the struct while it visits it. -/
theorem tailTable_terminates :
    let calls : List (Call Moment.tailTable) := [.widthOf ⟨0, by decide⟩]
    (Moment.after .off calls 2).computing.length = 1 ∧
      (Moment.after .off calls 3).computing.length = 2 ∧
      (Moment.after .off calls 3).resolver.unmarked <
        (Moment.after .off calls 2).resolver.unmarked ∧
      (Sorter.Tour.after Moment.tailTable .off 1).path.length = 1 ∧
      (Sorter.Tour.after Moment.tailTable .off 2).path.length = 2 ∧
      (Sorter.Tour.after Moment.tailTable .off 2).white <
        (Sorter.Tour.after Moment.tailTable .off 1).white := by
  intro calls
  obtain ⟨_, _, hcomputing, _, _, hvisiting⟩ :=
    resolution_terminates Moment.tailTable .off calls
  exact ⟨rfl, rfl, hcomputing 2 3 (by decide) (by decide), by decide, by decide,
    hvisiting 1 2 (by decide) (by decide)⟩

end WireSchema
