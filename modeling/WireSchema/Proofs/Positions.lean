import WireSchema.Proofs.RegistrationErrors
import WireSchema.Session

/-!
# Names and positions

A register grows by calls that declare.  A call puts its declaration at the end and its
name into the index, or it is refused and leaves both as they were.  What such a call does
is said once, for a call that is refused and for one that is not, and everything about a
run of calls follows by induction on the run:

* the index undoes naming (`Register.Inverse`): a name is found exactly at the position of
  the declaration that bears it;
* the declarations are those of the calls that succeeded (`Register.entered`), at the
  positions that the calls were given;
* positions and names that have been found stay as they are.

The table of a session is the register of its calls, and freezing keeps it.
-/

namespace WireSchema

namespace Register

variable {r : Register}

/-! ### Runs of calls -/

def after (r : Register) : List Decl → Register
  | [] => r
  | d :: calls => (r.declare d).2.after calls

def outcomes (r : Register) : List Decl → List (Except Error Nat)
  | [] => []
  | d :: calls => (r.declare d).1 :: (r.declare d).2.outcomes calls

def success? : Decl × Except Error Nat → Option (Decl × Nat)
  | (d, .ok position) => some (d, position)
  | (_, .error _) => none

/-- The calls that succeed, in their order, each with the position it was given. -/
def entered (r : Register) (calls : List Decl) : List (Decl × Nat) :=
  (calls.zip (r.outcomes calls)).filterMap success?

theorem after_append (r : Register) (calls more : List Decl) :
    r.after (calls ++ more) = (r.after calls).after more := by
  induction calls generalizing r with
  | nil => rfl
  | cons d calls ih => exact ih _

/-- A call succeeds with the next position, or it fails and changes nothing. -/
theorem declare_cases (r : Register) (d : Decl) :
    (∃ e, r.declare d = (.error e, r)) ∨
      r.index.find? d.name = none ∧
        r.declare d = (.ok r.decls.length,
          ⟨r.decls ++ [d], r.index.insert d.name r.decls.length⟩) := by
  cases hrefusal : r.refusal? d with
  | some e => exact .inl ⟨e, declare_of_refusal?_eq_some hrefusal⟩
  | none =>
    refine .inr ⟨?_, declare_of_refusal?_eq_none hrefusal⟩
    unfold refusal? at hrefusal
    cases hname : nameFault? d.kind d.name with
    | some rule => simp [hname] at hrefusal
    | none =>
      cases htaken : r.index.contains d.name with
      | true => simp [hname, htaken] at hrefusal
      | false => simpa [NameIndex.contains] using htaken

/-! ### The index undoes naming -/

/-- A name is found exactly at the position of the declaration that bears it. -/
def Inverse (r : Register) : Prop :=
  ∀ name position, r.index.find? name = some position ↔
    ∃ d, r.decls[position]? = some d ∧ d.name = name

theorem inverse_empty : Inverse {} := by
  intro name position
  constructor
  · intro h
    cases h
  · rintro ⟨d, hd, _⟩
    cases hd

/-- A call that declares keeps names and positions inverse to each other, whether it
    succeeds or not. -/
theorem Inverse.declare (h : r.Inverse) (d : Decl) : (r.declare d).2.Inverse := by
  rcases r.declare_cases d with ⟨e, hrefused⟩ | ⟨hfree, hentered⟩
  · rw [hrefused]
    exact h
  · rw [hentered]
    -- no declaration in the register bears the new name
    have hnew : ∀ (position : Nat) (other : Decl), r.decls[position]? = some other →
        other.name ≠ d.name := by
      intro position other hother hname
      rw [(h d.name position).mpr ⟨other, hother, hname⟩] at hfree
      cases hfree
    intro name position
    rw [NameIndex.find?_insert]
    simp only [getElem?_concat_eq_some_iff]
    split
    · rename_i hname
      subst hname
      constructor
      · rintro ⟨⟩
        exact ⟨d, .inr ⟨rfl, rfl⟩, rfl⟩
      · rintro ⟨other, hother | ⟨rfl, _⟩, hname⟩
        · exact (hnew position other hother hname).elim
        · rfl
    · rename_i hname
      rw [h name position]
      constructor
      · rintro ⟨other, hother, hbears⟩
        exact ⟨other, .inl hother, hbears⟩
      · rintro ⟨other, hother | ⟨_, rfl⟩, hbears⟩
        · exact ⟨other, hother, hbears⟩
        · exact (hname hbears.symm).elim

theorem Inverse.after (h : r.Inverse) (calls : List Decl) : (r.after calls).Inverse := by
  induction calls generalizing r with
  | nil => exact h
  | cons d calls ih => exact ih (h.declare d)

/-! ### What is entered, and what stays -/

theorem zipIdx_declare (r : Register) (d : Decl) :
    (r.declare d).2.decls.zipIdx = r.decls.zipIdx ++
      (success? (d, (r.declare d).1)).toList := by
  rcases r.declare_cases d with ⟨e, hrefused⟩ | ⟨_, hentered⟩
  · simp [hrefused, success?]
  · simp [hentered, success?, List.zipIdx_append]

/-- The declarations are those of the calls that succeeded, where these were given a
    place. -/
theorem zipIdx_after (r : Register) (calls : List Decl) :
    (r.after calls).decls.zipIdx = r.decls.zipIdx ++ r.entered calls := by
  induction calls generalizing r with
  | nil => simp [after, entered]
  | cons d calls ih =>
    rw [after, ih, zipIdx_declare, List.append_assoc, entered, entered, outcomes,
        List.zip_cons_cons]
    cases hsuccess : success? (d, (r.declare d).1) <;> simp [hsuccess]

def Extends (r later : Register) : Prop :=
  r.decls <+: later.decls ∧ ∀ name position, r.index.find? name = some position →
    later.index.find? name = some position

theorem extends_declare (r : Register) (d : Decl) : r.Extends (r.declare d).2 := by
  rcases r.declare_cases d with ⟨e, hrefused⟩ | ⟨hfree, hentered⟩
  · rw [hrefused]
    exact ⟨List.prefix_rfl, fun _ _ h => h⟩
  · rw [hentered]
    refine ⟨List.prefix_append _ _, ?_⟩
    intro name position hfound
    have hother : name ≠ d.name := by
      rintro rfl
      rw [hfree] at hfound
      cases hfound
    rw [NameIndex.find?_insert, if_neg hother, hfound]

theorem extends_after (r : Register) (calls : List Decl) : r.Extends (r.after calls) := by
  induction calls generalizing r with
  | nil => exact ⟨List.prefix_rfl, fun _ _ h => h⟩
  | cons d calls ih =>
    obtain ⟨hdecls, hfound⟩ := r.extends_declare d
    obtain ⟨hdecls', hfound'⟩ := ih (r.declare d).2
    exact ⟨hdecls.trans hdecls', fun name position h =>
        hfound' name position (hfound name position h)⟩

end Register

open SymbolTable

/-! ### Which calls succeed -/

theorem SymbolTable.toRegister_push (t : SymbolTable) (d : Decl) :
    (t.push d).toRegister = ⟨t.decls ++ [d], t.index.insert d.name t.size⟩ := by
  rw [t.indexed]
  exact congrArg (Register.mk _) (NameIndex.ofDecls_concat t.decls d)

/-- Calls leave the declarations that are acceptable, each after those before it. -/
theorem Register.after_eq (calls : List Decl) :
    Register.after {} calls = SymbolTable.toRegister { decls := accepted calls } := by
  -- the induction is on the last call, since what it does depends on all calls before it
  induction calls using List.reverseRecOn with
  | nil => rfl
  | append_singleton calls d ih =>
    rw [after_append, ih, after, after]
    cases hrejection : rejection? (calls, d) with
    | none =>
      rw [declare_of_refusal?_eq_none (rejection?_eq calls d ▸ hrejection),
        accepted_concat (rejection?_eq_none_iff.mp hrejection)]
      exact (toRegister_push { decls := accepted calls } d).symm
    | some e =>
      have hnot : ¬ Acceptable (calls, d) := by simp [← rejection?_eq_none_iff, hrejection]
      rw [declare_of_refusal?_eq_some (rejection?_eq calls d ▸ hrejection),
        accepted_concat_of_not hnot]

theorem SymbolTable.eq_accepted_of_ofDecls {t : SymbolTable} {decls : List Decl}
    (h : ofDecls decls = .ok t) : t = { decls := accepted decls } := by
  unfold ofDecls at h
  rw [declareAll_eq] at h
  simp only at h
  split at h
  · cases h
    rfl
  · cases h

theorem Register.refusal?_after (calls : List Decl) (d : Decl) :
    (Register.after {} calls).refusal? d = rejection? (calls, d) := by
  rw [after_eq, rejection?_eq]

theorem Register.declare_after_of_acceptable {calls : List Decl} {d : Decl}
    (h : Acceptable (calls, d)) :
    let r := Register.after {} calls
    r.declare d = (.ok r.decls.length,
        ⟨r.decls ++ [d], r.index.insert d.name r.decls.length⟩) :=
  declare_of_refusal?_eq_none ((refusal?_after calls d).trans
      (rejection?_eq_none_iff.mpr h))

theorem Register.declare_after_of_not {calls : List Decl} {d : Decl}
    (h : ¬ Acceptable (calls, d)) :
    ∃ e, (Register.after {} calls).declare d = (.error e, Register.after {} calls) := by
  rw [← rejection?_eq_none_iff] at h
  obtain ⟨e, he⟩ := Option.ne_none_iff_exists'.mp h
  exact ⟨e, declare_of_refusal?_eq_some ((refusal?_after calls d).trans he)⟩

namespace Session

/-! ### Sessions -/

def table : Session → SymbolTable
  | .growing t => t
  | .frozen t _ _ => t

def after (s : Session) : List Request → Session
  | [] => s
  | request :: rest => (s.step request).session.after rest

def declaring (calls : List Decl) : Session := after (.growing .empty) (calls.map .declare)

theorem exists_after_declare (t : SymbolTable) (calls : List Decl) :
    ∃ t', after (.growing t) (calls.map .declare) = .growing t' ∧
      t'.toRegister = t.toRegister.after calls := by
  induction calls generalizing t with
  | nil => exact ⟨t, rfl, rfl⟩
  | cons d calls ih => exact ih (t.declare d).2

/-- The table of a session is the register of its calls. -/
theorem toRegister_declaring (calls : List Decl) :
    (declaring calls).table.toRegister = Register.after {} calls := by
  obtain ⟨t, hsession, hregister⟩ := exists_after_declare {} calls
  rw [declaring, hsession]
  exact hregister

/-- No request changes a frozen table. -/
theorem exists_step_frozen (t : SymbolTable) (r : Resolver t) (sorter : Selection)
    (request : Request) :
    ∃ r' sorter',
      ((Session.frozen t r sorter).step request).session = .frozen t r' sorter' := by
  cases request <;> exact ⟨_, _, rfl⟩

theorem exists_after_frozen (t : SymbolTable) (r : Resolver t) (sorter : Selection)
    (requests : List Request) :
    ∃ r' sorter', (Session.frozen t r sorter).after requests = .frozen t r' sorter' := by
  induction requests generalizing r sorter with
  | nil => exact ⟨r, sorter, rfl⟩
  | cons request requests ih =>
    obtain ⟨r', sorter', hstep⟩ := exists_step_frozen t r sorter request
    rw [after, hstep]
    exact ih r' sorter'

theorem exists_freeze_declaring (calls : List Decl) (requests : List Request) :
    ∃ t r sorter, ((declaring calls).step .freeze).session.after requests =
      .frozen t r sorter ∧
      t.toRegister = Register.after {} calls := by
  obtain ⟨t, hsession, hregister⟩ := exists_after_declare {} calls
  obtain ⟨r, sorter, hfrozen⟩ := exists_after_frozen t {} .off requests
  refine ⟨t, r, sorter, ?_, hregister⟩
  rw [declaring, hsession]
  exact hfrozen

/-- A frozen table answers a reference by the number of the position of its name. -/
theorem reply_resolveRef_iff {t : SymbolTable} {r : Resolver t} {sorter : Selection}
    {owner name : String} {n : Nat} :
    ((Session.frozen t r sorter).step (.resolveRef owner name)).reply = .number n ↔
      ∃ position, t.index.find? name = some position ∧ n = position + 1 := by
  have hreply : ((Session.frozen t r sorter).step (.resolveRef owner name)).reply =
      .number n ↔ ∃ id, t.resolveRef owner name = .ok id ∧ number id = n := by
    simp only [step, stepFrozen]
    cases t.resolveRef owner name <;> simp [replyOf]
  simp only [hreply, resolveRef_eq_ok_iff, ← map_val_lookup, Option.map_eq_some_iff]
  constructor
  · rintro ⟨id, hid, rfl⟩
    exact ⟨id.val, ⟨id, hid, rfl⟩, rfl⟩
  · rintro ⟨_, ⟨id, hid, rfl⟩, rfl⟩
    exact ⟨id, hid, rfl⟩

/-! ### Names and positions -/

/-- **Names and positions correspond.**  Calls that declare are made on a new register, of
    which any may fail.

    Afterwards the index finds a name exactly at the position of the declaration that
    bears it.  The declarations are those of the calls that succeeded, in the order of the
    calls and at the positions that these were given.  The next call succeeds exactly if
    its declaration is proper and no proper one before it has its name: it is put at the
    end, and only its name is found at a new place.  A call that fails changes neither the
    declarations nor the index.  So positions and names that have been found stay as they
    are, whatever is declared later.

    The table of a session is the register of its calls, its look-ups are those of the
    index, and no request changes it once it is frozen.  A reference to a name then
    succeeds exactly if a call that declares the name did, and gives the number of its
    position.  A table that is registered as a whole is the one of the calls. -/
theorem names_and_positions (calls : List Decl) :
    let r := Register.after {} calls
    (∀ (name : String) (position : Nat), r.index.find? name = some position ↔
      ∃ d, r.decls[position]? = some d ∧ d.name = name) ∧
    r.decls.zipIdx = Register.entered {} calls ∧
    (∀ d : Decl,
      (Acceptable (calls, d) →
        (r.declare d).1 = .ok r.decls.length ∧ (r.declare d).2.decls = r.decls ++ [d] ∧
          ∀ name, (r.declare d).2.index.find? name =
            if name = d.name then some r.decls.length else r.index.find? name) ∧
      (¬ Acceptable (calls, d) → ∃ e, r.declare d = (.error e, r))) ∧
    (∀ more : List Decl, r.Extends (Register.after {} (calls ++ more))) ∧
    (let t := (declaring calls).table
     t.toRegister = r ∧ ∀ name, (t.lookup name).map Fin.val = r.index.find? name) ∧
    (∀ requests : List Request,
      let frozen := ((declaring calls).step .freeze).session.after requests
      frozen.table.toRegister = r ∧ ∀ owner name : String,
        ((∃ id, frozen.table.resolveRef owner name = .ok id) ↔
          ∃ call ∈ Register.entered {} calls, call.1.name = name) ∧
        ∀ n, (frozen.step (.resolveRef owner name)).reply = .number n ↔
          ∃ d position, (d, position) ∈ Register.entered {} calls ∧ d.name = name ∧
            n = position + 1) ∧
    ∀ loaded, ofDecls calls = .ok loaded → loaded.toRegister = r := by
  have hinverse : (Register.after {} calls).Inverse := Register.inverse_empty.after calls
  have hentered : (Register.after {} calls).decls.zipIdx = Register.entered {} calls := by
    simpa using Register.zipIdx_after {} calls
  have hfind : ∀ name position, (Register.after {} calls).index.find? name = some position ↔
      ∃ d, (d, position) ∈ Register.entered {} calls ∧ d.name = name := by
    intro name position
    simp only [hinverse name position, ← hentered, List.mem_zipIdx_iff_getElem?]
  refine ⟨hinverse, hentered, ?_, ?_, ?_, ?_, ?_⟩
  · intro d
    refine ⟨?_, Register.declare_after_of_not⟩
    intro hd
    rw [Register.declare_after_of_acceptable hd]
    exact ⟨rfl, rfl, fun name => NameIndex.find?_insert _ _ _ _⟩
  · intro more
    rw [Register.after_append]
    exact Register.extends_after _ more
  · have hregister := toRegister_declaring calls
    refine ⟨hregister, fun name => ?_⟩
    rw [map_val_lookup, hregister]
  · intro requests
    obtain ⟨t, r, sorter, hfrozen, hregister⟩ := exists_freeze_declaring calls requests
    rw [hfrozen]
    refine ⟨hregister, ?_⟩
    intro owner name
    constructor
    · simp only [resolveRef_eq_ok_iff, ← Option.isSome_iff_exists,
          ← Option.isSome_map (f := Fin.val), Session.table, map_val_lookup, hregister]
      simp only [Option.isSome_iff_exists, hfind, Prod.exists]
      exact exists_comm
    · intro n
      rw [reply_resolveRef_iff, hregister]
      simp only [hfind]
      constructor
      · rintro ⟨position, ⟨d, hd, hname⟩, hn⟩
        exact ⟨d, position, hd, hname, hn⟩
      · rintro ⟨d, position, hd, hname, hn⟩
        exact ⟨position, ⟨d, hd, hname⟩, hn⟩
  · intro loaded hloaded
    rw [Register.after_eq, eq_accepted_of_ofDecls hloaded]

/-- A struct without fields, a parameter that takes its name, a typedef that comes too
    late for it, and an enum. -/
def retriedCalls : List Decl :=
  [.struct { name := "DEPTH", fields := [] },
   .parameter { name := "DEPTH", value := .literal 4 },
   .typedef { name := "DEPTH", base := none, width := .literal 2 },
   .enum { name := "mode_e", width := .ref "DEPTH" .width, values := [{ name := "IDLE" }] }]

/-- The two calls that succeed get the positions zero and one; what was refused takes
    none. -/
theorem retriedCalls_positions :
    (Register.outcomes {} retriedCalls).map Except.toOption = [none, some 0, none, some 1] ∧
    (Register.after {} retriedCalls).index.find? "DEPTH" = some 0 ∧
    ¬ Acceptable (retriedCalls, .parameter { name := "DEPTH", value := .literal 5 }) ∧
    (∃ e, (Register.after {} retriedCalls).declare
        (.parameter { name := "DEPTH", value := .literal 5 }) =
      (.error e, Register.after {} retriedCalls)) ∧
    ((((declaring retriedCalls).step .freeze).session.after [.widthOf "mode_e"]).step
      (.resolveRef "x" "mode_e")).reply = .number 2 := by
  obtain ⟨hfind, _, hnext, _, _, hfrozen, _⟩ := names_and_positions retriedCalls
  have hrefused : ¬ Acceptable (retriedCalls,
        .parameter { name := "DEPTH", value := .literal 5 }) := by
    decide
  refine ⟨by rfl, (hfind "DEPTH" 0).mpr ⟨_, rfl, rfl⟩, hrefused, (hnext _).2 hrefused, ?_⟩
  exact (((hfrozen [.widthOf "mode_e"]).2 "x" "mode_e").2 2).mpr
    ⟨_, 1, List.mem_of_getElem? (i := 1) rfl, rfl, rfl⟩

end Session

end WireSchema
