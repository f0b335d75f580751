import Mathlib.Data.Fintype.Card
import Mathlib.Data.List.Induction
import Mathlib.Data.List.Nodup
import Mathlib.Logic.Relation
import WireSchema.SymbolTable

/-!
# Symbol tables

A table is a graph whose nodes are its positions: a declaration points to every
declaration it refers to.  The sorter walks this graph and the resolver walks a finer one,
so both are described by the two conditions stated here: every reference is declared
(`Closed`), and no declaration refers to itself through others (`Acyclic`).

A table that registration gives has more: it is `Registered`.  Every step of registration
keeps that, and a table in which nothing was refused has all the declarations.
-/

namespace WireSchema

theorem NameIndex.find?_ofDecls_eq_none_iff {decls : List Decl} {name : String} :
    (ofDecls decls).find? name = none ↔ name ∉ decls.map Decl.name := by
  induction decls using List.reverseRecOn with
  | nil => simp [ofDecls, find?]
  | append_singleton decls d ih =>
    rw [ofDecls_concat, find?_insert, List.map_append, List.mem_append, not_or, ← ih]
    split <;> simp_all

namespace SymbolTable

variable {t : SymbolTable}

/-! ### Looking up -/

theorem map_val_lookup (t : SymbolTable) (name : String) :
    (t.lookup name).map Fin.val = t.index.find? name := by
  simp [lookup, Option.map_pmap]

theorem name_of_lookup {name : String} {id : t.Id} (h : t.lookup name = some id) :
    (t.get id).name = name := by
  have hfind : t.index.find? name = some id.val := by
    rw [← map_val_lookup, h, Option.map_some]
  rw [t.indexed] at hfind
  obtain ⟨_, hname⟩ := NameIndex.exists_of_find? hfind
  exact hname

theorem lookup_eq_none_iff_notMem {name : String} :
    t.lookup name = none ↔ name ∉ t.decls.map Decl.name := by
  rw [← Option.map_eq_none_iff (f := Fin.val), map_val_lookup, t.indexed,
    NameIndex.find?_ofDecls_eq_none_iff]

theorem lookup_eq_none_iff {name : String} :
    t.lookup name = none ↔ ∀ id : t.Id, (t.get id).name ≠ name := by
  rw [lookup_eq_none_iff_notMem, List.mem_map]
  constructor
  · intro h id hname
    exact h ⟨t.get id, List.get_mem t.decls id, hname⟩
  · rintro h ⟨d, hd, hname⟩
    obtain ⟨id, rfl⟩ := List.get_of_mem hd
    exact h id hname

theorem exists_lookup_iff {name : String} :
    (∃ id, t.lookup name = some id) ↔ ∃ id : t.Id, (t.get id).name = name := by
  rw [← Option.isSome_iff_exists, Option.isSome_iff_ne_none, ne_eq, lookup_eq_none_iff]
  simp

theorem eq_of_name_eq (hnodup : (t.decls.map Decl.name).Nodup) {a b : t.Id}
    (h : (t.get a).name = (t.get b).name) : a = b := by
  have hsame : a.cast (List.length_map Decl.name).symm =
      b.cast (List.length_map Decl.name).symm := by
    apply List.nodup_iff_injective_get.mp hnodup
    simpa [get] using h
  simpa using hsame

theorem resolveRef_eq_ok_iff {owner name : String} {id : t.Id} :
    t.resolveRef owner name = .ok id ↔ t.lookup name = some id := by
  unfold resolveRef
  cases t.lookup name <;> simp

theorem resolveRef_eq_error_iff {owner name : String} {e : Error} :
    t.resolveRef owner name = .error e ↔ t.lookup name = none ∧
      e = .unknownReference owner name := by
  unfold resolveRef
  cases t.lookup name <;> simp [eq_comm]

theorem mem_ids (id : t.Id) : id ∈ t.ids := List.mem_finRange id

theorem nodup_ids : t.ids.Nodup := List.nodup_finRange _

/-- A list of positions without repeats is no longer than the table. -/
theorem length_le_size {ids : List t.Id} (h : ids.Nodup) : ids.length ≤ t.size := by
  simpa [size] using h.length_le_card

/-! ### References -/

def Refers (t : SymbolTable) (a b : t.Id) : Prop :=
  ∃ name ∈ (t.get a).references, t.lookup name = some b

def Closed (t : SymbolTable) : Prop :=
  ∀ a : t.Id, ∀ name ∈ (t.get a).references, ∃ b : t.Id, (t.get b).name = name

def Acyclic (t : SymbolTable) : Prop := ∀ a : t.Id, ¬ Relation.TransGen t.Refers a a

theorem Closed.lookup (h : t.Closed) {a : t.Id} {name : String}
    (hname : name ∈ (t.get a).references) : ∃ b, t.lookup name = some b :=
  exists_lookup_iff.mpr (h a name hname)

/-! ### Registration -/

/-- A table that registration gives: no two declarations have one name, and the members of
    each are in order. -/
structure Registered (t : SymbolTable) : Prop where
  nodup : (t.decls.map Decl.name).Nodup
  members : ∀ d ∈ t.decls, d.memberFault? = none

theorem registered_empty : Registered {} := by
  constructor
  · exact List.nodup_nil
  · intro d hd
    cases hd

def push (t : SymbolTable) (d : Decl) : SymbolTable where
  decls := t.decls ++ [d]

/-- A declaration is accepted if its name is allowed and not taken, and its members are in
    order. -/
theorem refusal?_eq_none_iff {d : Decl} :
    t.refusal? d = none ↔
      nameFault? d.kind d.name = none ∧ t.lookup d.name = none ∧ d.memberFault? = none := by
  have htaken : t.index.contains d.name = (t.lookup d.name).isSome := by
    rw [NameIndex.contains, ← map_val_lookup, Option.isSome_map]
  unfold Register.refusal?
  rw [htaken]
  cases nameFault? d.kind d.name with
  | some rule => simp
  | none => cases t.lookup d.name <;> simp

theorem declare_of_refusal?_eq_some {d : Decl} {e : Error} (h : t.refusal? d = some e) :
    t.declare d = (.error e, t) := by
  simp only [declare, Register.declare_of_refusal?_eq_some h]

theorem declare_of_refusal?_eq_none {d : Decl} (h : t.refusal? d = none) :
    t.declare d = (.ok t.size, t.push d) := by
  refine Prod.ext ?_ (SymbolTable.ext ?_)
  · simp only [declare, Register.declare_of_refusal?_eq_none h, size]
  · simp only [declare, Register.declare_of_refusal?_eq_none h, push]

theorem declareAll_cons_of_refusal?_eq_some {d : Decl} {e : Error}
    (h : t.refusal? d = some e) (ds : List Decl) :
    t.declareAll (d :: ds) = ((t.declareAll ds).1, e :: (t.declareAll ds).2) := by
  simp only [declareAll, declare_of_refusal?_eq_some h]

theorem declareAll_cons_of_refusal?_eq_none {d : Decl} (h : t.refusal? d = none)
    (ds : List Decl) : t.declareAll (d :: ds) = (t.push d).declareAll ds := by
  simp only [declareAll, declare_of_refusal?_eq_none h]

/-- Registration goes on with any declaration that is not refused. -/
theorem Registered.push (ht : t.Registered) {d : Decl} (h : t.refusal? d = none) :
    (t.push d).Registered := by
  obtain ⟨_, hfresh, hmembers⟩ := refusal?_eq_none_iff.mp h
  constructor
  · simp only [SymbolTable.push, List.map_append, List.map_cons, List.map_nil]
    apply ht.nodup.append (List.nodup_singleton _)
    intro name hname hd
    obtain ⟨old, hold, rfl⟩ := List.mem_map.mp hname
    obtain ⟨i, rfl⟩ := List.mem_iff_get.mp hold
    exact lookup_eq_none_iff.mp hfresh i (List.mem_singleton.mp hd)
  · intro other hother
    rcases List.mem_append.mp hother with hother | hother
    · exact ht.members other hother
    · rw [List.mem_singleton.mp hother]
      exact hmembers

/-- If nothing is refused, everything is kept. -/
theorem declareAll_spec {ds : List Decl} (ht : t.Registered)
    (h : (t.declareAll ds).2 = []) :
    (t.declareAll ds).1.decls = t.decls ++ ds ∧ (t.declareAll ds).1.Registered := by
  induction ds generalizing t with
  | nil => exact ⟨(List.append_nil _).symm, ht⟩
  | cons d ds ih =>
    cases hd : t.refusal? d with
    | some e =>
      rw [declareAll_cons_of_refusal?_eq_some hd] at h
      cases h
    | none =>
      rw [declareAll_cons_of_refusal?_eq_none hd] at h ⊢
      obtain ⟨hdecls, hreg⟩ := ih (ht.push hd) h
      refine ⟨?_, hreg⟩
      rw [hdecls]
      simp [push]

/-- A table that is accepted has all declarations, and is registered. -/
theorem registered_of_ofDecls {decls : List Decl} (h : ofDecls decls = .ok t) :
    t.decls = decls ∧ t.Registered := by
  unfold ofDecls at h
  rcases hall : declareAll empty decls with ⟨final, rejected⟩
  rw [hall] at h
  simp only [List.isEmpty_iff, List.append_eq_nil_iff] at h
  split at h
  · rename_i hnone
    cases h
    have hrejected : (declareAll empty decls).2 = [] := by
      rw [hall]
      exact hnone.1
    have hspec := declareAll_spec registered_empty hrejected
    rw [hall] at hspec
    exact hspec
  · cases h

end SymbolTable

theorem fields_ne_nil_of_memberFault? {s : StructDef}
    (h : (Decl.struct s).memberFault? = none) : s.fields ≠ [] := by
  intro hnil
  simp [Decl.memberFault?, Decl.members?, hnil] at h

/-! ### A small table -/

/-- A parameter, an enum as wide as the parameter's width, an array of it, and a struct
    that holds the array and as many bits as the parameter says. -/
def laneTable : SymbolTable where
  decls :=
    [.struct { name := "lane_t", fields := [{ name := "tags", type := .named "tags_t" },
       { name := "data", type := .logic (.ref "N" .value) }] },
     .typedef { name := "tags_t", base := some "tag_e", width := .ref "N" .value },
     .enum { name := "tag_e", width := .ref "N" .width, values := [{ name := "A" }] },
     .parameter { name := "N", value := .literal 4 }]

end WireSchema
