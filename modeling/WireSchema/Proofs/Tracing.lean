import WireSchema.Compile
import WireSchema.Proofs.Colours
import WireSchema.Proofs.Table

/-!
# Tracing only observes

The resolver and the sorter write a trace line for every declaration that their selection
holds.  Here a run under any two selections is compared with the run that writes all
lines: it goes through the same states, apart from the lines that are left out
(`Observes`), so it has the same outcome, and it writes the lines of the full run that the
selections keep, in the same order.
-/

namespace WireSchema

def Tracing.full : Tracing where
  resolver := .all
  sorter := .all

/-- The notice is written under these settings.  Log records always are; a trace line is,
    if its stage selects the declaration. -/
def Tracing.keeps (tracing : Tracing) : Notice → Bool
  | .log _ _ _ => true
  | .trace line =>
    match line.action with
    | .widthOf => tracing.resolver.selects line.number
    | .valueOf => tracing.resolver.selects line.number
    | .visit => tracing.sorter.selects line.number

def Tracing.select (tracing : Tracing) (lines : List TraceLine) : List TraceLine :=
  lines.filter fun line => tracing.keeps (.trace line)

theorem Tracing.filter_trace (tracing : Tracing) (lines : List TraceLine) :
    (lines.map Notice.trace).filter tracing.keeps = (tracing.select lines).map .trace :=
  List.filter_map

theorem Tracing.reverse_select (tracing : Tracing) (lines : List TraceLine) :
    (tracing.select lines).reverse = tracing.select lines.reverse :=
  List.filter_reverse.symm

/-! ### Runs that write fewer lines -/

/-- A stage with a state does the same when fewer lines are written: it gives the same
    answer, and its states differ in nothing but the lines.  `narrow` takes a state of the
    full run to that of the narrower one, and `Full` says that a state belongs to a full
    run. -/
def Observes {σ β : Type} (Full : σ → Prop) (narrow : σ → σ) (run : σ → β × σ) : Prop :=
  ∀ s, Full s → run (narrow s) = ((run s).1, narrow (run s).2) ∧ Full (run s).2

namespace Resolver

variable {t : SymbolTable} (tracing : Tracing)

def WritesAll (r : Resolver t) : Prop := r.selection = .all

def narrow (r : Resolver t) : Resolver t :=
  { r with selection := tracing.resolver, trace := tracing.select r.trace }

theorem keeps_traceLine (key : Key t) :
    tracing.keeps (.trace (traceLine key)) =
      tracing.resolver.selects (SymbolTable.number key.id) := by
  rcases key with ⟨id, _ | _⟩ <;> rfl

theorem observes_note {r : Resolver t} (h : r.WritesAll) (key : Key t) :
    (r.narrow tracing).note key = (r.note key).narrow tracing ∧ (r.note key).WritesAll := by
  have hnote : r.note key = { r with trace := traceLine key :: r.trace } := by
    rw [note, if_pos (by rw [h]; rfl)]
  rw [hnote]
  refine ⟨?_, h⟩
  by_cases hkept : tracing.resolver.selects (SymbolTable.number key.id) = true
  · simp [note, narrow, Tracing.select, keeps_traceLine, hkept]
  · simp [note, narrow, Tracing.select, keeps_traceLine, hkept]

theorem observes_carryOut {α : Type} {ask : Key t → Resolver t → Answer t Nat}
    (hask : ∀ key, Observes WritesAll (narrow tracing) (ask key)) (plan : Plan t α) :
    Observes WritesAll (narrow tracing) (carryOut ask plan) := by
  intro r hr
  induction plan generalizing r with
  | done a => exact ⟨rfl, hr⟩
  | fail e => exact ⟨rfl, hr⟩
  | ask key next ih =>
    obtain ⟨hsame, hafter⟩ := hask key r hr
    rcases hout : ask key r with ⟨outcome, after⟩
    rw [hout] at hsame hafter
    simp only [carryOut, hout, hsame]
    cases outcome with
    | ok n => exact ih n after hafter
    | error e => exact ⟨rfl, hafter⟩

/-- Answering a question does not depend on what is traced. -/
theorem observes_query (depth : Nat) (key : Key t) :
    Observes WritesAll (narrow tracing) (query depth key) := by
  induction depth generalizing key with
  | zero => exact fun r hr => ⟨rfl, hr⟩
  | succ depth ih =>
    intro r hr
    obtain ⟨hnote, hnoted⟩ := observes_note tracing hr key
    have hmark : ((r.note key).narrow tracing).mark? key = (r.note key).mark? key := rfl
    simp only [query, hnote, hmark]
    cases (r.note key).mark? key with
    | some progress =>
      cases progress with
      | done n => exact ⟨rfl, hnoted⟩
      | inProgress => exact ⟨rfl, hnoted⟩
    | none =>
      have henter : ((r.note key).narrow tracing).enter key =
          ((r.note key).enter key).narrow tracing := rfl
      obtain ⟨hsame, hafter⟩ := observes_carryOut tracing ih (Plan.rule key)
        ((r.note key).enter key) hnoted
      rcases hout : carryOut (query depth) (Plan.rule key) ((r.note key).enter key)
        with ⟨outcome, after⟩
      rw [hout] at hsame hafter
      simp only [henter, hsame]
      cases outcome with
      | ok n => exact ⟨rfl, hafter⟩
      | error e => exact ⟨rfl, hafter⟩

end Resolver

namespace Sorter

variable {t : SymbolTable} (tracing : Tracing)

def WritesAll (s : Sorter t) : Prop := s.selection = .all

def narrow (s : Sorter t) : Sorter t :=
  { s with selection := tracing.sorter, trace := tracing.select s.trace }

theorem observes_note {s : Sorter t} (h : s.WritesAll) (id : t.Id) :
    (s.narrow tracing).note id = (s.note id).narrow tracing ∧ (s.note id).WritesAll := by
  have hnote : s.note id = { s with trace := ⟨.visit, SymbolTable.number id,
          (t.get id).name⟩ :: s.trace } := by
    rw [note, if_pos (by rw [h]; rfl)]
  rw [hnote]
  refine ⟨?_, h⟩
  by_cases hkept : tracing.sorter.selects (SymbolTable.number id) = true
  · simp [note, narrow, Tracing.select, Tracing.keeps, hkept]
  · simp [note, narrow, Tracing.select, Tracing.keeps, hkept]

theorem observes_visitNames {visit : t.Id → Sorter t → Outcome t}
    (hvisit : ∀ id, Observes WritesAll (narrow tracing) (visit id)) (owner : String)
    (names : List String) :
    Observes WritesAll (narrow tracing) (visitNames visit owner names) := by
  intro s hs
  induction names generalizing s with
  | nil => exact ⟨rfl, hs⟩
  | cons name rest ih =>
    unfold visitNames
    cases t.resolveRef owner name with
    | error e => exact ⟨rfl, hs⟩
    | ok id =>
      obtain ⟨hsame, hafter⟩ := hvisit id s hs
      rcases hout : visit id s with ⟨outcome, after⟩
      rw [hout] at hsame hafter
      simp only [hsame, hout]
      cases outcome with
      | ok _ => exact ih after hafter
      | error e => exact ⟨rfl, hafter⟩

/-- Visiting a declaration does not depend on what is traced. -/
theorem observes_visit (depth : Nat) (path : List t.Id) (id : t.Id) :
    Observes WritesAll (narrow tracing) (visit depth path id) := by
  induction depth generalizing path id with
  | zero => exact fun s hs => ⟨rfl, hs⟩
  | succ depth ih =>
    intro s hs
    have hplaced : (s.narrow tracing).placed = s.placed := rfl
    simp only [visit, hplaced]
    split
    · exact ⟨rfl, hs⟩
    · split
      · exact ⟨rfl, hs⟩
      · obtain ⟨hnote, hnoted⟩ := observes_note tracing hs id
        obtain ⟨hsame, hafter⟩ := observes_visitNames tracing
          (fun other => ih (id :: path) other) (t.get id).name (t.get id).references
          (s.note id) hnoted
        rcases hout : visitNames (visit depth (id :: path)) (t.get id).name
          (t.get id).references (s.note id) with ⟨outcome, after⟩
        rw [hout] at hsame hafter
        simp only [hnote, hsame]
        cases outcome with
        | ok _ => exact ⟨rfl, hafter⟩
        | error e => exact ⟨rfl, hafter⟩

theorem observes_visitAll (ids : List t.Id) :
    Observes WritesAll (narrow tracing) (visitAll ids) := by
  intro s hs
  induction ids generalizing s with
  | nil => exact ⟨rfl, hs⟩
  | cons id rest ih =>
    obtain ⟨hsame, hafter⟩ := observes_visit tracing (t.size + 1) [] id s hs
    rcases hout : visit (t.size + 1) [] id s with ⟨outcome, after⟩
    rw [hout] at hsame hafter
    simp only [visitAll, visitEach, hsame, hout]
    cases outcome with
    | ok _ => exact ih after hafter
    | error e => exact ⟨rfl, hafter⟩

end Sorter

/-! ### Journals -/

namespace Journal

variable {ε α β : Type}

def filter (keep : Notice → Bool) (x : Journal ε α) : Journal ε α :=
  ⟨x.notices.filter keep, x.outcome⟩

theorem filter_bind (keep : Notice → Bool) (x : Journal ε α) (f : α → Journal ε β) :
    (x >>= f).filter keep = x.filter keep >>= fun a => (f a).filter keep := by
  change (x.andThen f).filter keep = (x.filter keep).andThen fun a => (f a).filter keep
  cases hout : x.outcome <;> simp [filter, andThen, hout]

theorem filter_eq_self {keep : Notice → Bool} {x : Journal ε α}
    (h : ∀ notice ∈ x.notices, keep notice = true) : x.filter keep = x := by
  simp [filter, List.filter_eq_self.mpr h]

end Journal

namespace SymbolTable

variable (t : SymbolTable) (tracing : Tracing)

theorem resolveItems_eq_filter :
    t.resolveItems tracing.resolver = (t.resolveItems .all).filter tracing.keeps := by
  obtain ⟨hsame, _⟩ := Resolver.observes_carryOut tracing
    (Resolver.observes_query tracing (Resolver.depthLimit t)) (Plan.items t.ids)
    { selection := .all } rfl
  change Resolver.carryOut _ _ { selection := tracing.resolver } = _ at hsame
  unfold resolveItems Resolver.run Resolver.traceLines
  rw [hsame]
  simp only [Journal.filter, Tracing.filter_trace, ← Tracing.reverse_select]
  rfl

theorem order_eq_select :
    t.order tracing.sorter = ((t.order .all).1, tracing.select (t.order .all).2) := by
  obtain ⟨hsame, _⟩ := Sorter.observes_visitAll tracing t.ids { selection := .all } rfl
  change Sorter.visitAll _ { selection := tracing.sorter } = _ at hsame
  rcases hout : Sorter.visitAll t.ids { selection := .all } with ⟨outcome, after⟩
  rw [hout] at hsame
  rw [order_eq, order_eq, hsame, hout]
  cases outcome with
  | ok _ => simp only [Sorter.result, Sorter.narrow, Tracing.reverse_select]
  | error e => simp only [Sorter.result, Sorter.narrow, Tracing.reverse_select]

/-- The declarations of `laneTable` are visited in order, each from the one before it;
    from the third on, two lines are left. -/
example :
    (laneTable.order .all).2.map TraceLine.text =
        ["visit <- #1 lane_t", "visit <- #2 tags_t", "visit <- #3 tag_e", "visit <- #4 N"] ∧
      (laneTable.order (.after 3)).2.map TraceLine.text =
        ["visit <- #3 tag_e", "visit <- #4 N"] := by
  decide

theorem sort_eq_filter : t.sort tracing.sorter = (t.sort .all).filter tracing.keeps := by
  unfold sort
  rw [order_eq_select]
  simp only [Journal.filter]
  rw [List.filter_cons_of_pos rfl, Tracing.filter_trace]

end SymbolTable

/-! ### Compilations -/

theorem Schema.ofText_eq_filter (text : String) (tracing : Tracing) :
    Schema.ofText text = (Schema.ofText text).filter tracing.keeps := by
  have hvalue : ∀ value, ∀ notice ∈ (Schema.ofValue value).notices, tracing.keeps notice =
      true := by
    intro value notice hnotice
    unfold Schema.ofValue at hnotice
    split at hnotice
    · obtain ⟨entry, _, hsection⟩ := List.mem_filterMap.mp hnotice
      split at hsection
      · cases hsection
        rfl
      · cases hsection
    · cases hnotice
    · cases hnotice
  refine (Journal.filter_eq_self ?_).symm
  intro notice hnotice
  unfold Schema.ofText at hnotice
  split at hnotice
  · cases hnotice
  · split at hnotice
    · exact hvalue _ notice hnotice
    · cases hnotice

theorem Package.resolve_eq_filter (name source : String) (schema : Schema)
    (tracing : Tracing) :
    Package.resolve name source schema tracing =
      (Package.resolve name source schema .full).filter tracing.keeps := by
  have hregister : (SymbolTable.register schema.decls).filter tracing.keeps =
      SymbolTable.register schema.decls := rfl
  simp only [Package.resolve, Journal.filter_bind, hregister,
      SymbolTable.resolveItems_eq_filter _ tracing, SymbolTable.sort_eq_filter _ tracing,
      Tracing.full]
  rfl

theorem compile_eq_filter (name source text : String) (target : Target)
    (tracing : Tracing) :
    compile name source text { target := target, tracing := tracing } =
      (compile name source text { target := target, tracing := .full }).filter
        tracing.keeps := by
  have hpackage : Package.ofText name source text tracing =
      (Package.ofText name source text .full).filter tracing.keeps := by
    simp only [Package.ofText, Journal.filter_bind, ← Schema.ofText_eq_filter,
        ← Package.resolve_eq_filter]
  simp only [compile, Journal.filter_bind, hpackage]
  rfl

/-- **Tracing only observes.**  Whatever the two selections are, a compilation ends as it
    does without tracing, in an artifact or in errors, and it writes the notices of the
    compilation with all lines, in the same order, less the trace lines whose declarations
    are not selected for their stage. -/
theorem compile_traced (name source text : String) (target : Target) (tracing : Tracing) :
    (compile name source text { target := target, tracing := tracing }).outcome =
        (compile name source text { target := target, tracing := {} }).outcome ∧
      (compile name source text { target := target, tracing := tracing }).notices =
        (compile name source text { target := target, tracing := .full }).notices.filter
          tracing.keeps := by
  rw [compile_eq_filter name source text target tracing,
      compile_eq_filter name source text target {}]
  exact ⟨rfl, rfl⟩

end WireSchema
