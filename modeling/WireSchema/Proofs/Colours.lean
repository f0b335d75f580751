import Mathlib.Data.List.Nodup
import WireSchema.Order
import WireSchema.Proofs.Lists
import WireSchema.Proofs.Table

/-!
# Colours

A search keeps three things side by side, and writes them one after the other: the
colours, the path and the order.  `Coherent` says how they belong together: the grey
declarations are those on the path, the black ones are those in the order, and none stands
twice.  A visit keeps this, whether it succeeds or fails, and if it succeeds the path is
as before (`keeps_visit`).

So colours and path can be forgotten.  A `Sorter` knows only what has been placed, and is
told the path; it does the same as the search (`forget_visit`), and what follows about
orders is proved for it.
-/

namespace WireSchema

variable {t : SymbolTable}

/-! ### Visits one after another -/

section Steps

variable {σ : Type} {visit : t.Id → σ → Except Error Unit × σ} {owner name : String}
  {names : List String} {ids : List t.Id} {id : t.Id} {s s' : σ} {e : Error}

theorem visitNames_cons_eq_ok_iff :
    visitNames visit owner (name :: names) s = (.ok (), s') ↔
      ∃ b s₁, t.lookup name = some b ∧ visit b s = (.ok (), s₁) ∧
        visitNames visit owner names s₁ = (.ok (), s') := by
  rw [visitNames, SymbolTable.resolveRef]
  cases t.lookup name with
  | none => simp
  | some b => rcases hout : visit b s with ⟨_ | _, s₁⟩ <;> simp [hout]

theorem visitNames_cons_eq_error_iff :
    visitNames visit owner (name :: names) s = (.error e, s') ↔
      (t.lookup name = none ∧ e = .unknownReference owner name ∧ s = s') ∨
        ∃ b, t.lookup name = some b ∧ (visit b s = (.error e, s') ∨
          ∃ s₁, visit b s = (.ok (), s₁) ∧
            visitNames visit owner names s₁ = (.error e, s')) := by
  rw [visitNames, SymbolTable.resolveRef]
  cases t.lookup name with
  | none => simp [eq_comm]
  | some b => rcases hout : visit b s with ⟨_ | _, s₁⟩ <;> simp [hout]

theorem visitEach_cons_eq_ok_iff :
    visitEach visit (id :: ids) s = (.ok (), s') ↔
      ∃ s₁, visit id s = (.ok (), s₁) ∧ visitEach visit ids s₁ = (.ok (), s') := by
  rw [visitEach]
  rcases hout : visit id s with ⟨_ | _, s₁⟩ <;> simp

theorem visitEach_cons_eq_error_iff :
    visitEach visit (id :: ids) s = (.error e, s') ↔
      visit id s = (.error e, s') ∨
        ∃ s₁, visit id s = (.ok (), s₁) ∧ visitEach visit ids s₁ = (.error e, s') := by
  rw [visitEach]
  rcases hout : visit id s with ⟨_ | _, s₁⟩ <;> simp

end Steps

/-! ### Colours, path and order -/

namespace Search

variable {c : Search t} {id : t.Id}

/-- The grey declarations are those on the path, the black ones those in the order, and
    none stands twice. -/
structure Coherent (c : Search t) : Prop where
  grey_iff : ∀ id : t.Id, c.colour id = .grey ↔ id ∈ c.path
  black_iff : ∀ id : t.Id, c.colour id = .black ↔ id ∈ c.order
  nodup : (c.path ++ c.order).Nodup

theorem colour_start (selection : Selection) (id : t.Id) :
    ({ selection := selection } : Search t).colour id = .white :=
  Vector.getElem_replicate id.isLt

theorem coherent_start (selection : Selection) :
    Coherent ({ selection := selection } : Search t) where
  grey_iff := by simp [colour_start]
  black_iff := by simp [colour_start]
  nodup := List.nodup_nil

theorem Coherent.nodup_path (h : c.Coherent) : c.path.Nodup := h.nodup.of_append_left

theorem Coherent.length_path_le (h : c.Coherent) : c.path.length ≤ t.size :=
  SymbolTable.length_le_size h.nodup_path

theorem get_set (colours : Vector Colour t.decls.length) (id other : t.Id)
    (colour : Colour) :
    (colours.set id.val colour id.isLt).get other =
      if other = id then colour else colours.get other := by
  change (colours.set id.val colour id.isLt)[other.val] =
    if other = id then colour else colours[other.val]
  rw [Vector.getElem_set]
  simp only [Fin.val_inj, eq_comm]

theorem colour_enter (other : t.Id) :
    (c.enter id).colour other = if other = id then .grey else c.colour other :=
  get_set c.colours id other .grey

theorem colour_leave (other : t.Id) :
    (c.leave id).colour other = if other = id then .black else c.colour other :=
  get_set c.colours id other .black

@[simp] theorem colour_note (other : t.Id) : (c.note id).colour other = c.colour other := by
  unfold note
  split <;> rfl

@[simp] theorem path_note : (c.note id).path = c.path := by
  unfold note
  split <;> rfl

@[simp] theorem order_note : (c.note id).order = c.order := by
  unfold note
  split <;> rfl

theorem Coherent.note (h : c.Coherent) (id : t.Id) : (c.note id).Coherent where
  grey_iff := by simpa using h.grey_iff
  black_iff := by simpa using h.black_iff
  nodup := by simpa using h.nodup

/-- A white declaration can be entered: it becomes grey, at the end of the path. -/
theorem Coherent.enter (h : c.Coherent) (hwhite : c.colour id = .white) :
    (c.enter id).Coherent := by
  have hpath : id ∉ c.path := by simp [← h.grey_iff, hwhite]
  have horder : id ∉ c.order := by simp [← h.black_iff, hwhite]
  constructor
  · intro other
    rw [colour_enter]
    simp only [Search.enter, List.mem_append, List.mem_singleton, ← h.grey_iff]
    split <;> simp_all
  · intro other
    rw [colour_enter]
    simp only [Search.enter, ← h.black_iff]
    split <;> simp_all
  · have hperm : (c.path ++ [id] ++ c.order).Perm (id :: (c.path ++ c.order)) := by
      rw [List.append_assoc]
      exact List.perm_middle
    refine hperm.nodup_iff.mpr (List.nodup_cons.mpr ⟨?_, h.nodup⟩)
    simp [hpath, horder]

/-- The last declaration of the path can be left: it becomes black and goes into the
    order. -/
theorem Coherent.leave (h : c.Coherent) {outer : List t.Id}
    (hpath : c.path = outer ++ [id]) :
    (c.leave id).Coherent ∧ (c.leave id).path = outer := by
  have hleft : (c.leave id).path = outer := by simp [Search.leave, hpath]
  have hnodup := h.nodup
  rw [hpath, List.append_assoc, List.singleton_append] at hnodup
  have hfresh : id ∉ outer ++ c.order := (List.nodup_middle.mp hnodup).notMem
  refine ⟨⟨?_, ?_, ?_⟩, hleft⟩
  · intro other
    have hgrey := h.grey_iff other
    rw [hpath] at hgrey
    rw [hleft, colour_leave]
    split
    · rename_i hother
      simp_all
    · simp_all
  · intro other
    rw [colour_leave]
    simp only [Search.leave, List.mem_append, List.mem_singleton, ← h.black_iff]
    split <;> simp_all
  · rw [hleft]
    have hperm : (outer ++ (c.order ++ [id])).Perm (outer ++ id :: c.order) :=
      (List.perm_append_singleton id c.order).append_left outer
    exact hperm.nodup_iff.mpr hnodup

/-- What a visit leaves: a coherent search, on the same path if the visit succeeded. -/
def Keeps (c : Search t) (out : Except Error Unit × Search t) : Prop :=
  out.2.Coherent ∧ (out.1 = .ok () → out.2.path = c.path)

theorem Coherent.keeps (h : c.Coherent) (outcome : Except Error Unit) :
    Keeps c (outcome, c) :=
  ⟨h, fun _ => rfl⟩

/-- What every visit keeps, the visits of all references of a declaration keep. -/
theorem keeps_visitNames {visit : t.Id → Search t → Except Error Unit × Search t}
    (owner : String)
    (hvisit : ∀ (b : t.Id) (c : Search t), c.Coherent → Keeps c (visit b c))
    (names : List String) (hc : c.Coherent) :
    Keeps c (visitNames visit owner names c) := by
  induction names generalizing c with
  | nil => exact hc.keeps _
  | cons name names ih =>
    unfold visitNames
    cases t.resolveRef owner name with
    | error e => exact hc.keeps _
    | ok b =>
      have hkeeps := hvisit b c hc
      rcases hout : visit b c with ⟨e | ⟨⟩, c₁⟩
      · rw [hout] at hkeeps
        simp only [hout]
        exact hkeeps
      · rw [hout] at hkeeps
        obtain ⟨hlast, hpath⟩ := ih hkeeps.1
        simp only [hout]
        exact ⟨hlast, fun h => (hpath h).trans (hkeeps.2 rfl)⟩

/-- **A visit keeps colours, path and order together**, whether it succeeds or fails. -/
theorem keeps_visit (depth : Nat) (id : t.Id) (hc : c.Coherent) :
    Keeps c (visit depth id c) := by
  induction depth generalizing id c with
  | zero => exact hc.keeps _
  | succ depth ih =>
    unfold visit
    cases hcolour : c.colour id with
    | black => exact hc.keeps _
    | grey => exact hc.keeps _
    | white =>
      have hentered : ((c.note id).enter id).Coherent :=
        (hc.note id).enter (by simpa using hcolour)
      have hkeeps := keeps_visitNames (t.get id).name (fun b c hc => ih b hc)
        (t.get id).references hentered
      rcases hout : visitNames (visit depth) (t.get id).name (t.get id).references
        ((c.note id).enter id) with ⟨e | ⟨⟩, c₁⟩
      · rw [hout] at hkeeps
        simp only [hout]
        exact ⟨hkeeps.1, by simp⟩
      · rw [hout] at hkeeps
        have houter : c₁.path = c.path ++ [id] := by simpa [enter] using hkeeps.2 rfl
        obtain ⟨hleft, hsame⟩ := hkeeps.1.leave houter
        simp only [hout]
        exact ⟨hleft, fun _ => hsame⟩

/-- A declaration on the path stands there once, and the circle it closes begins with it. -/
theorem Coherent.circle_eq (h : c.Coherent) (hid : id ∈ c.path) :
    ∃ before inner, c.path = before ++ id :: inner ∧ id ∉ inner ∧
      c.circle id = .cycle ((id :: inner ++ [id]).map fun i => (t.get i).name) := by
  obtain ⟨before, inner, hsplit, hbefore⟩ := List.eq_append_cons_of_mem hid
  have hnodup := h.nodup_path
  rw [hsplit] at hnodup
  have hinner : id ∉ inner := (List.nodup_cons.mp hnodup.of_append_right).1
  have hstart : c.path.findIdx? (· == id) = some before.length := by
    rw [hsplit, List.findIdx?_append, List.findIdx?_eq_none_iff.mpr, List.findIdx?_cons]
    · simp
    · intro other hother
      simpa using fun heq : other = id => hbefore (heq ▸ hother)
  refine ⟨before, inner, hsplit, hinner, ?_⟩
  simp only [circle, hstart, Option.getD_some]
  rw [hsplit, List.drop_left]

end Search

/-! ### Sorters -/

/-- A sorter: the declarations placed so far. -/
structure Sorter (t : SymbolTable) where
  /-- The placed declarations, last one first. -/
  placed : List t.Id := []
  /-- The declarations for which trace lines are written. -/
  selection : Selection := .off
  /-- The trace lines, last one first. -/
  trace : List TraceLine := []

namespace Sorter

/-- The circle that a declaration on the path closes; the path has its innermost
    declaration first. -/
def circle (path : List t.Id) (id : t.Id) : Error :=
  let inner := path.takeWhile (· != id)
  .cycle ((id :: inner.reverse ++ [id]).map fun i => (t.get i).name)

def note (s : Sorter t) (id : t.Id) : Sorter t :=
  if s.selection.selects (SymbolTable.number id) then
    { s with trace := ⟨.visit, SymbolTable.number id, (t.get id).name⟩ :: s.trace }
  else s

def place (s : Sorter t) (id : t.Id) : Sorter t := { s with placed := id :: s.placed }

abbrev Outcome (t : SymbolTable) := Except Error Unit × Sorter t

/-- Visit a declaration that was reached along `path`, with at most `depth` visits inside
    one another. -/
def visit : Nat → List t.Id → t.Id → Sorter t → Outcome t
  | 0, _, _, s => (.error .tooDeep, s)
  | depth + 1, path, id, s =>
    if s.placed.contains id then (.ok (), s)
    else if path.contains id then (.error (circle path id), s)
    else
      let d := t.get id
      match visitNames (visit depth (id :: path)) d.name d.references (s.note id) with
      | (.ok (), s) => (.ok (), s.place id)
      | (.error e, s) => (.error e, s)

def visitAll (ids : List t.Id) (s : Sorter t) : Outcome t :=
  visitEach (visit (t.size + 1) []) ids s

def result : Outcome t → Except Error (List t.Id) × List TraceLine
  | (.ok (), s) => (.ok s.placed.reverse, s.trace.reverse)
  | (.error e, s) => (.error e, s.trace.reverse)

end Sorter

namespace Search

variable {c : Search t} {id : t.Id}

/-- The search without colours and path. -/
def forget (c : Search t) : Sorter t where
  placed := c.order.reverse
  selection := c.selection
  trace := c.trace

theorem forget_note : (c.note id).forget = c.forget.note id := by
  unfold note Sorter.note
  split <;> simp_all [forget]

theorem forget_leave : (c.leave id).forget = c.forget.place id := by
  simp [forget, leave, Sorter.place]

theorem Coherent.forget_circle (h : c.Coherent) (hid : id ∈ c.path) :
    c.circle id = Sorter.circle c.path.reverse id := by
  obtain ⟨before, inner, hsplit, hinner, hcircle⟩ := h.circle_eq hid
  have htake : c.path.reverse.takeWhile (· != id) = inner.reverse := by
    rw [hsplit, List.reverse_append, List.reverse_cons, List.append_assoc,
        List.singleton_append]
    exact takeWhile_ne_append_cons (by simpa using hinner)
  simp only [Sorter.circle, htake, hcircle, List.reverse_reverse]

def forgetOutcome (out : Except Error Unit × Search t) : Sorter.Outcome t :=
  (out.1, out.2.forget)

/-- If the visits of single declarations agree with and without colours, so do the visits
    of all references of a declaration. -/
theorem forget_visitNames {visit : t.Id → Search t → Except Error Unit × Search t}
    {visit' : t.Id → Sorter t → Sorter.Outcome t} {path : List t.Id}
    (hkeeps : ∀ (b : t.Id) (c : Search t), c.Coherent → Keeps c (visit b c))
    (hvisit : ∀ (b : t.Id) (c : Search t), c.Coherent → c.path = path →
      visit' b c.forget = forgetOutcome (visit b c)) (owner : String)
    (names : List String) (hc : c.Coherent) (hpath : c.path = path) :
    visitNames visit' owner names c.forget =
      forgetOutcome (visitNames visit owner names c) := by
  induction names generalizing c with
  | nil => rfl
  | cons name names ih =>
    unfold visitNames
    cases t.resolveRef owner name with
    | error e => rfl
    | ok b =>
      obtain ⟨hcoherent, hsame⟩ := hkeeps b c hc
      simp only [hvisit b c hc hpath]
      rcases hout : visit b c with ⟨e | ⟨⟩, c₁⟩
      · rfl
      · rw [hout] at hcoherent hsame
        exact ih hcoherent ((hsame rfl).trans hpath)

/-- **Colours and path can be forgotten**: a sorter that is told the path does the same. -/
theorem forget_visit (depth : Nat) (id : t.Id) (hc : c.Coherent) :
    Sorter.visit depth c.path.reverse id c.forget = forgetOutcome (visit depth id c) := by
  induction depth generalizing id c with
  | zero => rfl
  | succ depth ih =>
    have hplaced : c.forget.placed.contains id = decide (c.colour id = .black) := by
      rw [List.contains_eq_mem, decide_eq_decide, hc.black_iff]
      simp [forget]
    have hpath : c.path.reverse.contains id = decide (c.colour id = .grey) := by
      rw [List.contains_eq_mem, decide_eq_decide, hc.grey_iff, List.mem_reverse]
    unfold Sorter.visit visit
    rw [hplaced, hpath]
    cases hcolour : c.colour id with
    | black => rfl
    | grey => simp [forgetOutcome, hc.forget_circle ((hc.grey_iff id).mp hcolour)]
    | white =>
      have hentered : ((c.note id).enter id).Coherent :=
        (hc.note id).enter (by simpa using hcolour)
      have hinner : ∀ (b : t.Id) (c₁ : Search t), c₁.Coherent → c₁.path = c.path ++ [id] →
          Sorter.visit depth (id :: c.path.reverse) b c₁.forget =
            forgetOutcome (visit depth b c₁) := by
        intro b c₁ hc₁ hpath₁
        rw [← ih b hc₁, hpath₁, List.reverse_append]
        rfl
      have hbelow := forget_visitNames (fun b c hc => keeps_visit depth b hc) hinner
        (t.get id).name (t.get id).references hentered (by simp [enter])
      have hforget : ((c.note id).enter id).forget = c.forget.note id := forget_note
      rw [hforget] at hbelow
      simp only [reduceCtorEq, decide_false, Bool.false_eq_true, if_false, hbelow]
      rcases visitNames (visit depth) (t.get id).name (t.get id).references
        ((c.note id).enter id) with ⟨e | ⟨⟩, c₁⟩
      · rfl
      · exact Prod.ext rfl forget_leave.symm

theorem forget_visitEach (ids : List t.Id) (hc : c.Coherent) (hpath : c.path = []) :
    Sorter.visitAll ids c.forget =
      forgetOutcome (visitEach (visit (t.size + 1)) ids c) := by
  induction ids generalizing c with
  | nil => rfl
  | cons id ids ih =>
    have hid := forget_visit (t.size + 1) id hc
    obtain ⟨hcoherent, hsame⟩ := keeps_visit (t.size + 1) id hc
    rw [hpath, List.reverse_nil] at hid
    unfold Sorter.visitAll visitEach
    rw [hid]
    rcases hout : visit (t.size + 1) id c with ⟨e | ⟨⟩, c₁⟩
    · rfl
    · rw [hout] at hcoherent hsame
      exact ih hcoherent ((hsame rfl).trans hpath)

end Search

/-- The search with colours gives what the sorter gives, for which the path and the placed
    declarations are enough. -/
theorem SymbolTable.order_eq (t : SymbolTable) (selection : Selection) :
    t.order selection = Sorter.result
      (Sorter.visitAll t.ids { selection := selection }) := by
  have hforget := Search.forget_visitEach t.ids (Search.coherent_start selection) rfl
  have hstart : ({ selection := selection } : Search t).forget =
      { selection := selection } := rfl
  rw [hstart] at hforget
  unfold SymbolTable.order
  rw [hforget]
  rcases visitEach (Search.visit (t.size + 1)) t.ids { selection := selection }
    with ⟨e | ⟨⟩, c⟩
  · rfl
  · simp [Search.forgetOutcome, Search.forget, Sorter.result]

end WireSchema
