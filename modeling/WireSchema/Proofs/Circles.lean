import Mathlib.Data.List.Chain
import WireSchema.Proofs.Lists
import WireSchema.Proofs.TopologicalOrder

/-!
# Circles of declarations

Where declarations refer to each other in a circle, the compiler says so and gives the
names on the circle.  `IsCircle` is what such a report has to be: names that lead from one
declaration to the next by references, that end where they begin, and among which no other
name stands twice.

The sorter reports a declaration that it meets while it is grey.  Grey is the path, the
path has no repeats, and each declaration on it refers to the next: so the path from where
the declaration stands is a circle.  These facts are kept by every visit, also by those
that fail, and whatever the sorter reports is there: a circle, or a reference to a name
that is not declared.
-/

namespace WireSchema

variable {t : SymbolTable}

namespace SymbolTable

/-! ### Circles by name -/

def NameRefers (t : SymbolTable) (x y : String) : Prop :=
  ∃ a, t.lookup x = some a ∧ y ∈ (t.get a).references

/-- Names that lead from one declaration to the next and back to the first, and to none of
    them twice before that. -/
structure IsCircle (t : SymbolTable) (path : List String) : Prop where
  two_le_length : 2 ≤ path.length
  closed : path.head? = path.getLast?
  nodup : path.dropLast.Nodup
  refers : path.IsChain t.NameRefers

def IsFound (t : SymbolTable) (id : t.Id) : Prop := t.lookup (t.get id).name = some id

theorem Refers.isFound {a b : t.Id} (h : t.Refers a b) : t.IsFound b := by
  obtain ⟨name, _, hlookup⟩ := h
  rw [IsFound, name_of_lookup hlookup]
  exact hlookup

theorem IsFound.eq_of_name_eq {a b : t.Id} (ha : t.IsFound a) (hb : t.IsFound b)
    (hname : (t.get a).name = (t.get b).name) : a = b := by
  rw [IsFound, hname, hb] at ha
  exact (Option.some.inj ha).symm

theorem Refers.nameRefers {a b : t.Id} (h : t.Refers a b) (ha : t.IsFound a) :
    t.NameRefers (t.get a).name (t.get b).name := by
  obtain ⟨name, hname, hlookup⟩ := h
  rw [name_of_lookup hlookup]
  exact ⟨a, ha, hname⟩

/-- A circle of positions gives a circle of names. -/
theorem isCircle_of_refers {id : t.Id} {inner : List t.Id} (hnodup : (id :: inner).Nodup)
    (hchain : (id :: inner ++ [id]).IsChain t.Refers) :
    t.IsCircle ((id :: inner ++ [id]).map fun i => (t.get i).name) := by
  -- everything on the circle is referred to, the first declaration by the last one
  have hid : t.IsFound id := (hchain.rel_getLast_head_of_append (List.cons_ne_nil _ _)
      (List.cons_ne_nil _ _)).isFound
  have hfound : ∀ i ∈ id :: inner ++ [id], t.IsFound i :=
    hchain.induction t.IsFound _ (fun _ _ hab _ => hab.isFound) fun _ => hid
  refine ⟨by simp, ?_, ?_, ?_⟩
  · rw [List.map_append, List.map_singleton, List.getLast?_concat]
    rfl
  · rw [List.map_append, List.map_singleton, List.dropLast_concat]
    apply hnodup.map_on
    intro a ha b hb
    exact (hfound a (List.mem_append_left _ ha)).eq_of_name_eq
      (hfound b (List.mem_append_left _ hb))
  · rw [List.isChain_map]
    apply hchain.imp_of_mem_imp
    intro a b ha _ hab
    exact hab.nameRefers (hfound a ha)

/-- The error names something that is wrong with the table. -/
def Genuine (t : SymbolTable) : Error → Prop
  | .cycle path => t.IsCircle path
  | .unknownReference owner name =>
    ∃ a, (t.get a).name = owner ∧ name ∈ (t.get a).references ∧ t.lookup name = none
  | _ => False

end SymbolTable

/-! ### What the sorter reports -/

namespace Search

variable {c c' : Search t} {id : t.Id} {e : Error}

theorem isCircle_of_grey (hc : c.Coherent) (hid : c.colour id = .grey)
    (hlinked : (c.path ++ [id]).IsChain t.Refers) : t.Genuine (c.circle id) := by
  obtain ⟨before, inner, hsplit, hinner, hcircle⟩ := hc.circle_eq ((hc.grey_iff id).mp hid)
  have hnodup := hc.nodup_path
  rw [hsplit] at hnodup hlinked
  rw [hcircle]
  apply SymbolTable.isCircle_of_refers hnodup.of_append_right
  rw [List.append_assoc] at hlinked
  exact hlinked.right_of_append

/-- The errors of visiting all references of a declaration are genuine if those of
    visiting one are. -/
theorem genuine_of_visitNames {visit : t.Id → Search t → Except Error Unit × Search t}
    {a : t.Id} (hkeeps : ∀ (b : t.Id) (c : Search t), c.Coherent → Keeps c (visit b c))
    {path : List t.Id}
    (hvisit : ∀ (b : t.Id) (c c' : Search t), c.Coherent → c.path = path → t.Refers a b →
      visit b c = (.error e, c') → t.Genuine e) {names : List String}
    (hnames : names ⊆ (t.get a).references) (hc : c.Coherent) (hpath : c.path = path)
    (h : visitNames visit (t.get a).name names c = (.error e, c')) : t.Genuine e := by
  induction names generalizing c with
  | nil => cases h
  | cons name names ih =>
    rw [List.cons_subset] at hnames
    rcases visitNames_cons_eq_error_iff.mp h with
      ⟨hnone, rfl, _⟩ | ⟨b, hlookup, hb | ⟨c₁, hb, h⟩⟩
    · exact ⟨a, rfl, hnames.1, hnone⟩
    · exact hvisit b c c' hc hpath ⟨name, hnames.1, hlookup⟩ hb
    · have hkept := hkeeps b c hc
      rw [hb] at hkept
      exact ih hnames.2 hkept.1 ((hkept.2 rfl).trans hpath) h

/-- **A visit that fails** has a reason in the table.  The path holds the declarations
    that are being visited, each of which refers to the next, and the last one to the
    visited one. -/
theorem genuine_of_visit {depth : Nat} (hc : c.Coherent)
    (hroom : t.size < depth + c.path.length) (hlinked : (c.path ++ [id]).IsChain t.Refers)
    (h : visit depth id c = (.error e, c')) : t.Genuine e := by
  induction depth generalizing id c c' with
  | zero =>
    have hlength := hc.length_path_le
    omega
  | succ depth ih =>
    unfold visit at h
    cases hcolour : c.colour id with
    | black => simp [hcolour] at h
    | grey =>
      simp only [hcolour, Prod.mk.injEq, Except.error.injEq] at h
      rw [← h.1]
      exact isCircle_of_grey hc hcolour hlinked
    | white =>
      have hentered : ((c.note id).enter id).Coherent :=
        (hc.note id).enter (by simpa using hcolour)
      have hpath : ((c.note id).enter id).path = c.path ++ [id] := by simp [enter]
      simp only [hcolour] at h
      rcases hout : visitNames (visit depth) (t.get id).name (t.get id).references
        ((c.note id).enter id) with ⟨e' | ⟨⟩, c₁⟩
      · simp only [hout, Prod.mk.injEq, Except.error.injEq] at h
        rw [h.1] at hout
        refine genuine_of_visitNames (fun b c hc => keeps_visit depth b hc) ?_
          (List.Subset.refl _) hentered hpath hout
        intro b c₁ c₂ hc₁ hpath₁ hrefers hb
        refine ih hc₁ ?_ ?_ hb
        · rw [hpath₁, List.length_append, List.length_singleton]
          omega
        · rw [hpath₁]
          exact List.isChain_append.mpr
            ⟨hlinked, List.isChain_singleton b, by simpa using hrefers⟩
      · simp [hout] at h

theorem genuine_of_visitEach {ids : List t.Id} (hc : c.Coherent) (hpath : c.path = [])
    (h : visitEach (visit (t.size + 1)) ids c = (.error e, c')) : t.Genuine e := by
  induction ids generalizing c with
  | nil => cases h
  | cons id ids ih =>
    rcases visitEach_cons_eq_error_iff.mp h with hid | ⟨c₁, hid, h⟩
    · refine genuine_of_visit hc (by omega) ?_ hid
      rw [hpath]
      exact List.isChain_singleton id
    · have hkept := keeps_visit (t.size + 1) id hc
      rw [hid] at hkept
      exact ih hkept.1 ((hkept.2 rfl).trans hpath) h

end Search

namespace SymbolTable

/-- **Every failure of the sorter is real.**  It reports a circle of declarations, or a
    name that some declaration refers to and that is not declared, and never anything
    else. -/
theorem order_error_genuine (t : SymbolTable) (selection : Selection) (e : Error)
    (h : (t.order selection).1 = .error e) :
    (∃ path, e = .cycle path ∧ t.IsCircle path) ∨
      ∃ owner name, e = .unknownReference owner name ∧
        ∃ a, (t.get a).name = owner ∧ name ∈ (t.get a).references ∧
          ∀ b, (t.get b).name ≠ name := by
  have hgenuine : t.Genuine e := by
    unfold order at h
    rcases hvisit : visitEach (Search.visit (t.size + 1)) t.ids { selection := selection }
      with ⟨e' | ⟨⟩, c⟩
    · simp only [hvisit, Except.error.injEq] at h
      exact Search.genuine_of_visitEach (Search.coherent_start selection) rfl (h ▸ hvisit)
    · simp [hvisit] at h
  cases e with
  | cycle path => exact Or.inl ⟨path, rfl, hgenuine⟩
  | unknownReference owner name =>
    obtain ⟨a, howner, hname, hnone⟩ := hgenuine
    exact Or.inr ⟨owner, name, rfl, a, howner, hname, lookup_eq_none_iff.mp hnone⟩
  | _ => exact hgenuine.elim

/-- Three structs, of which the last two hold each other. -/
def ringTable : SymbolTable where
  decls :=
    [.struct { name := "a_t", fields := [{ name := "b", type := .named "b_t" }] },
     .struct { name := "b_t", fields := [{ name := "c", type := .named "c_t" }] },
     .struct { name := "c_t", fields := [{ name := "b", type := .named "b_t" }] }]

/-- The circle is reported without the struct that leads to it.  Without its last struct
    the table has no circle, but a name that is not declared. -/
theorem ringTable_order_error :
    (ringTable.order .off).1 = .error (.cycle ["b_t", "c_t", "b_t"]) ∧
      ringTable.IsCircle ["b_t", "c_t", "b_t"] ∧
      (order { decls := ringTable.decls.take 2 } .off).1 =
        .error (.unknownReference "b_t" "c_t") ∧
        ∀ b, (get { decls := ringTable.decls.take 2 } b).name ≠ "c_t" := by
  have hcircle : (ringTable.order .off).1 = .error (.cycle ["b_t", "c_t", "b_t"]) := by
    decide
  have hunknown : (order { decls := ringTable.decls.take 2 } .off).1 =
      .error (.unknownReference "b_t" "c_t") := by decide
  refine ⟨hcircle, ?_, hunknown, ?_⟩
  · rcases order_error_genuine ringTable .off _ hcircle
      with ⟨path, hpath, h⟩ | ⟨_, _, hpath, _⟩
    · cases hpath
      exact h
    · cases hpath
  · rcases order_error_genuine { decls := ringTable.decls.take 2 } .off _ hunknown
      with ⟨_, hname, _⟩ | ⟨_, _, hname, _, _, _, h⟩
    · cases hname
    · cases hname
      exact h

end SymbolTable

end WireSchema
