import WireSchema.Proofs.Runs
import WireSchema.Proofs.TopologicalOrder

/-!
# The sorter at every moment

A sort is taken apart into single steps: a name is followed, a declaration is placed, or
the next declaration is taken up.  A `Tour` is a state of it.  It holds the declarations
that are being visited, each with the names that it still has to follow, and no limit on
how many they are.  `SymbolTable.order` gives what the steps come to (`exists_end`).

What a tour visits and what it has placed never overlap, and neither has a repeat
(`Tidy`).
-/

namespace WireSchema

variable {t : SymbolTable}

namespace Sorter

structure Tour (t : SymbolTable) where
  sorter : Sorter t
  /-- The declarations that are being visited, innermost first, and the names that each
      still has to follow. -/
  visiting : List (t.Id × List String) := []
  /-- The declarations that are still to be taken up. -/
  ahead : List t.Id := []
  outcome : Option (Except Error Unit) := none

namespace Tour

def path (w : Tour t) : List t.Id := w.visiting.map Prod.fst

/-- Come to a declaration.  If it is placed already, nothing happens; if it is being
    visited, that is a circle. -/
def meet (w : Tour t) (id : t.Id) : Tour t :=
  if w.sorter.placed.contains id then w
  else if w.path.contains id then { w with outcome := some (.error (circle w.path id)) }
  else { w with sorter := w.sorter.note id, visiting := (id, (t.get id).references) ::
      w.visiting }

def next (w : Tour t) : Tour t :=
  match w.outcome with
  | some _ => w
  | none =>
    match w.visiting with
    | (id, name :: names) :: outer =>
      match t.resolveRef (t.get id).name name with
      | .ok b => meet { w with visiting := (id, names) :: outer } b
      | .error e => { w with outcome := some (.error e) }
    | (id, []) :: outer => { w with sorter := w.sorter.place id, visiting := outer }
    | [] =>
      match w.ahead with
      | id :: ahead => meet { w with ahead := ahead } id
      | [] => { w with outcome := some (.ok ()) }

def after (t : SymbolTable) (selection : Selection) (n : Nat) : Tour t :=
  next^[n] { sorter := { selection := selection }, ahead := t.ids }

variable {a b : Tour t} {outer : List (t.Id × List String)} {ahead : List t.Id} {id : t.Id}

/-! ### The steps of a visit -/

/-- A visit that begins at `a` ends as the sorter says: with another sorter and nothing
    else new, or with an error. -/
def Ends (a : Tour t) (outer : List (t.Id × List String)) (ahead : List t.Id) :
    Outcome t → Prop
  | (.ok (), s) => Comes next a ⟨s, outer, ahead, none⟩
  | (.error e, s) =>
    ∃ last, Comes next a last ∧ last.outcome = some (.error e) ∧ last.sorter = s

theorem Ends.of_comes {out : Outcome t} (hab : Comes next a b)
    (h : Ends b outer ahead out) : Ends a outer ahead out := by
  rcases out with ⟨e | ⟨⟩, s⟩
  · obtain ⟨last, hlast, hend⟩ := h
    exact ⟨last, hab.trans hlast, hend⟩
  · exact hab.trans h

/-- The steps through the references of a declaration end as their visits do, if the steps
    of every visit end as the visit does. -/
theorem ends_visitNames {visit : t.Id → Sorter t → Outcome t} (names : List String)
    (hvisit : ∀ b names s, Ends (meet ⟨s, (id, names) :: outer, ahead, none⟩ b)
      ((id, names) :: outer) ahead (visit b s)) (s : Sorter t) :
    Ends ⟨s, (id, names) :: outer, ahead, none⟩ ((id, []) :: outer) ahead
      (visitNames visit (t.get id).name names s) := by
  induction names generalizing s with
  | nil => exact Comes.refl _ _
  | cons name names ih =>
    apply Ends.of_comes (Comes.single _ _)
    unfold visitNames
    cases hresolve : t.resolveRef (t.get id).name name with
    | error e =>
      simp only [next, hresolve]
      exact ⟨_, Comes.refl _ _, rfl, rfl⟩
    | ok b =>
      have hb := hvisit b names s
      simp only [next, hresolve]
      rcases hout : visit b s with ⟨e | ⟨⟩, s₁⟩
      · rw [hout] at hb
        exact hb
      · rw [hout] at hb
        exact (ih s₁).of_comes hb

/-- **What meeting a declaration comes to** without a limit is what a visit gives within
    its limit. -/
theorem ends_visit {depth : Nat} (hnodup : (outer.map Prod.fst).Nodup)
    (hroom : t.size < depth + outer.length) (id : t.Id) (s : Sorter t) :
    Ends (meet ⟨s, outer, ahead, none⟩ id) outer ahead
      (visit depth (outer.map Prod.fst) id s) := by
  induction depth generalizing outer id s with
  | zero =>
    have hlength := SymbolTable.length_le_size hnodup
    rw [List.length_map] at hlength
    omega
  | succ depth ih =>
    unfold visit meet
    by_cases hplaced : s.placed.contains id = true
    · simp only [hplaced, if_true]
      exact Comes.refl _ _
    by_cases hpath : (outer.map Prod.fst).contains id = true
    · simp only [hplaced, path, hpath, if_true]
      exact ⟨_, Comes.refl _ _, rfl, rfl⟩
    have hfresh : id ∉ outer.map Prod.fst := by simpa using hpath
    have hbelow : ∀ b names s, Ends (meet ⟨s, (id, names) :: outer, ahead, none⟩ b)
        ((id, names) :: outer) ahead (visit depth (id :: outer.map Prod.fst) b s) := by
      intro b names s
      have hinner : (((id, names) :: outer).map Prod.fst).Nodup :=
        List.nodup_cons.mpr ⟨hfresh, hnodup⟩
      exact ih hinner (by rw [List.length_cons]; omega) b s
    have hnames := ends_visitNames (t.get id).references hbelow (s.note id)
    simp only [hplaced, path, hpath]
    rcases hout : visitNames (visit depth (id :: outer.map Prod.fst)) (t.get id).name
      (t.get id).references (s.note id) with ⟨e | ⟨⟩, s₁⟩
    · rw [hout] at hnames
      exact hnames
    · rw [hout] at hnames
      exact hnames.trans (Comes.single _ _)

/-- The steps of a whole sort end in the outcome of the sorter. -/
theorem ends_visitAll (ids : List t.Id) (s : Sorter t) :
    ∃ last, Comes next ⟨s, [], ids, none⟩ last ∧ last.outcome = some (visitAll ids s).1 ∧
      last.sorter = (visitAll ids s).2 := by
  induction ids generalizing s with
  | nil => exact ⟨_, Comes.single _ _, rfl, rfl⟩
  | cons id ids ih =>
    have hid : Ends (meet ⟨s, [], ids, none⟩ id) [] ids (visit (t.size + 1) [] id s) :=
      ends_visit (by simp) (by simp) id s
    have hfirst := Ends.of_comes (Comes.single next (⟨s, [], id :: ids, none⟩ : Tour t)) hid
    unfold visitAll visitEach
    rcases hout : visit (t.size + 1) [] id s with ⟨e | ⟨⟩, s₁⟩
    · rw [hout] at hfirst
      exact hfirst
    · rw [hout] at hfirst
      obtain ⟨last, hlast, hend⟩ := ih s₁
      exact ⟨last, Comes.trans hfirst hlast, hend⟩

/-- A sort ends, and with the order of the table. -/
theorem exists_end (t : SymbolTable) (selection : Selection) :
    ∃ n outcome, (after t selection n).outcome = some outcome ∧
      (t.order selection).1 = outcome.map fun _ =>
        (after t selection n).sorter.placed.reverse := by
  obtain ⟨_, ⟨n, rfl⟩, hend, hsorter⟩ := ends_visitAll t.ids { selection := selection }
  refine ⟨n, _, hend, ?_⟩
  unfold after
  rw [SymbolTable.order_eq, hsorter]
  rcases visitAll t.ids { selection := selection } with ⟨e | ⟨⟩, s⟩ <;> rfl

/-! ### What every step keeps -/

/-- What one step does to the path and to the placed declarations: nothing, or it takes up
    a declaration that is in neither, or it places the innermost one of the path. -/
inductive Turn (w after : Tour t) : Prop
  | stays (hpath : after.path = w.path) (hplaced : after.sorter.placed = w.sorter.placed)
  | takesUp (id : t.Id) (hfresh : id ∉ w.path ++ w.sorter.placed)
      (hpath : after.path = id :: w.path) (hplaced : after.sorter.placed = w.sorter.placed)
  | places (id : t.Id) (hpath : w.path = id :: after.path)
      (hplaced : after.sorter.placed = id :: w.sorter.placed)

theorem turn_meet {w : Tour t} (before : Tour t) (hpath : before.path = w.path)
    (hsorter : before.sorter = w.sorter) (id : t.Id) : Turn w (before.meet id) := by
  unfold meet
  rw [hpath, hsorter]
  by_cases hplaced : id ∈ w.sorter.placed
  · simp only [List.contains_eq_mem, hplaced, decide_true, if_true]
    exact .stays hpath (by rw [hsorter])
  by_cases hcircle : id ∈ w.path
  · simp only [List.contains_eq_mem, hplaced, hcircle, decide_true, decide_false,
        Bool.false_eq_true, if_true, if_false]
    exact .stays hpath rfl
  · simp only [List.contains_eq_mem, hplaced, hcircle, decide_false,
        Bool.false_eq_true, if_false]
    refine .takesUp id (by simp [hplaced, hcircle]) ?_ (placed_note w.sorter id)
    rw [← hpath]
    rfl

theorem turn_next (w : Tour t) : Turn w w.next := by
  rcases w with ⟨s, visiting, ahead, _ | outcome⟩
  · rcases visiting with _ | ⟨⟨id, _ | ⟨name, names⟩⟩, outer⟩
    · cases ahead with
      | nil => exact .stays rfl rfl
      | cons id ahead => exact turn_meet ⟨s, [], ahead, none⟩ (by rfl) (by rfl) id
    · exact .places id rfl rfl
    · cases hresolve : t.resolveRef (t.get id).name name with
      | error e =>
        simp only [next, hresolve]
        exact .stays rfl rfl
      | ok b =>
        simp only [next, hresolve]
        exact turn_meet ⟨s, (id, names) :: outer, ahead, none⟩ (by rfl) (by rfl) b
  · exact .stays rfl rfl

/-- No declaration is visited twice at a time or placed twice, and none that is placed is
    being visited. -/
def Tidy (w : Tour t) : Prop := (w.path ++ w.sorter.placed).Nodup

theorem tidy_next {w : Tour t} (h : w.Tidy) : w.next.Tidy := by
  unfold Tidy at h ⊢
  cases turn_next w with
  | stays hpath hplaced => rwa [hpath, hplaced]
  | takesUp id hfresh hpath hplaced =>
    rw [hpath, hplaced]
    exact List.nodup_cons.mpr ⟨hfresh, h⟩
  | places id hpath hplaced =>
    rw [hpath] at h
    rw [hplaced]
    exact List.perm_middle.nodup_iff.mpr h

theorem length_placed_next (w : Tour t) :
    w.sorter.placed.length ≤ w.next.sorter.placed.length := by
  cases turn_next w with
  | stays _ hplaced => rw [hplaced]
  | takesUp _ _ _ hplaced => rw [hplaced]
  | places _ _ hplaced => simp [hplaced]

theorem after_succ (t : SymbolTable) (selection : Selection) (n : Nat) :
    after t selection (n + 1) = (after t selection n).next :=
  Function.iterate_succ_apply' next n _

/-- At every moment a sort is tidy. -/
theorem tidy_after (t : SymbolTable) (selection : Selection) (n : Nat) :
    (after t selection n).Tidy := by
  induction n with
  | zero => exact List.nodup_nil
  | succ n ih =>
    rw [after_succ]
    exact tidy_next ih

/-- What is placed is not taken back. -/
theorem length_placed_after {t : SymbolTable} (selection : Selection) {n later : Nat}
    (h : n ≤ later) :
    (after t selection n).sorter.placed.length ≤
      (after t selection later).sorter.placed.length := by
  induction h with
  | refl => exact Nat.le_refl _
  | @step later _ ih =>
    rw [after_succ]
    apply Nat.le_trans ih
    exact length_placed_next _

end Tour

end Sorter

end WireSchema
