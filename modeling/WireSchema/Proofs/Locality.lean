import WireSchema.Proofs.Correspondence
import WireSchema.Proofs.Lists

/-!
# Resolution is local

What a resolver finds for a declaration depends on the declarations that can be reached
from it and on nothing else: other declarations can be added, left out or changed, and all
can stand in another order.  This holds of errors as well, also of circles, which are
found by comparing positions and reported by names.

The positions that one name leads to in two tables correspond one to one (`Meets`),
because a name is read off each of them.  So the two resolvers go through corresponding
stacks, find a circle at the same question, and cut the same path out of it (`answer_eq`).
The tables may be of different sizes, and then the numbers of computations that the
resolvers allow inside one another differ; neither is ever used up.
-/

namespace WireSchema

open Plan

variable {s t : SymbolTable} {R : s.Id → t.Id → Prop}

/-! ### Stacks that correspond -/

def Key.Corresponds (R : s.Id → t.Id → Prop) (k : Key s) (l : Key t) : Prop :=
  R k.id l.id ∧ k.quantity = l.quantity

theorem Key.biUnique_corresponds (hR : Relator.BiUnique R) :
    Relator.BiUnique (Key.Corresponds R) := by
  constructor
  · rintro ⟨a, p⟩ ⟨b, q⟩ ⟨c, r⟩ ⟨hac, hpr⟩ ⟨hbc, hqr⟩
    have hab : a = b := hR.1 hac hbc
    have hpq : p = q := hpr.trans hqr.symm
    rw [hab, hpq]
  · rintro ⟨a, p⟩ ⟨b, q⟩ ⟨c, r⟩ ⟨hab, hpq⟩ ⟨hac, hpr⟩
    have hbc : b = c := hR.2 hab hac
    have hqr : q = r := hpq.symm.trans hpr
    rw [hbc, hqr]

namespace Resolver

/-- Corresponding stacks have the same circle. -/
theorem circle_eq (hR : Matching R) (hunique : Relator.BiUnique R) {stack : List (Key s)}
    {stack' : List (Key t)} (hstack : List.Forall₂ (Key.Corresponds R) stack stack')
    {k : Key s} {l : Key t} (hkl : Key.Corresponds R k l) :
    circle { stack := stack } k = circle { stack := stack' } l := by
  have hname : ∀ {k : Key s} {l : Key t}, Key.Corresponds R k l →
      (s.get k.id).name = (t.get l.id).name := by
    intro k l h
    rw [hR.get_eq h.1]
  have hinner := takeWhile_ne_of_forall₂ (Key.biUnique_corresponds hunique) hkl hstack
  have hpath : List.Forall₂ (Key.Corresponds R) (k :: (stack.takeWhile (· != k)).reverse)
      (l :: (stack'.takeWhile (· != l)).reverse) := .cons hkl (List.rel_reverse hinner)
  have hnames : (k :: (stack.takeWhile (· != k)).reverse).map
      (fun key => (s.get key.id).name) = (l :: (stack'.takeWhile (· != l)).reverse).map
      fun key => (t.get key.id).name := by
    rw [← List.forall₂_eq_eq_eq, List.forall₂_map_left_iff, List.forall₂_map_right_iff]
    exact hpath.imp fun _ _ h => hname h
  simp only [circle, hnames, hname hkl]

/-- **Corresponding questions have the same answer**, with corresponding stacks around
    them. -/
theorem answer_eq (hR : Matching R) (hunique : Relator.BiUnique R) {depth depth' : Nat}
    {stack : List (Key s)} {stack' : List (Key t)} (hroom : Roomy depth stack)
    (hroom' : Roomy depth' stack')
    (hstack : List.Forall₂ (Key.Corresponds R) stack stack') {a : s.Id} {b : t.Id}
    (hab : R a b) (quantity : Quantity) :
    answer depth stack ⟨a, quantity⟩ = answer depth' stack' ⟨b, quantity⟩ := by
  induction depth generalizing depth' stack stack' a b quantity with
  | zero => exact (not_roomy_zero hroom).elim
  | succ depth ih =>
    cases depth' with
    | zero => exact (not_roomy_zero hroom').elim
    | succ depth' =>
      have hkeys : Key.Corresponds R ⟨a, quantity⟩ ⟨b, quantity⟩ := ⟨hab, rfl⟩
      have hmem := List.rel_mem (Key.biUnique_corresponds hunique) hkeys hstack
      by_cases hkey : (⟨a, quantity⟩ : Key s) ∈ stack
      · have hkey' := hmem.mp hkey
        simp only [answer, if_pos hkey, if_pos hkey', circle_eq hR hunique hstack hkeys]
      · have hkey' : (⟨b, quantity⟩ : Key t) ∉ stack' := fun h => hkey (hmem.mpr h)
        rw [answer_succ hkey, answer_succ hkey']
        apply (alike_rule hR hab quantity).follow_eq
        intro c d hcd quantity'
        exact ih (hroom.push hkey) (hroom'.push hkey') (.cons hkeys hstack) hcd quantity'

/-- Idle resolvers over two tables carry out alike plans with the same result. -/
theorem run_eq_of_alike (hR : Matching R) (hunique : Relator.BiUnique R) {α : Type}
    {plan : Plan s α} {plan' : Plan t α} (halike : Alike R Eq plan plan') {r : Resolver s}
    {r' : Resolver t} (hr : Idle r) (hr' : Idle r') :
    (r.run plan).1 = (r'.run plan').1 := by
  rw [(run_spec hr plan).1, (run_spec hr' plan').1]
  apply halike.follow_eq
  intro a b hab quantity
  exact answer_eq hR hunique roomy_start roomy_start .nil hab quantity

end Resolver

/-! ### Names that can be reached -/

namespace SymbolTable

def find? (t : SymbolTable) (name : String) : Option Decl := (t.lookup name).map t.get

/-- The least set of names that contains `start` and the references of all declarations
    found under its names. -/
inductive Reaches (t : SymbolTable) (start : String) : String → Prop
  | start : Reaches t start start
  | step {name next : String} {d : Decl} (h : Reaches t start name)
      (hfound : t.find? name = some d) (hnext : next ∈ d.references) : Reaches t start next

/-- The positions that a name reached from `start` leads to. -/
def Meets (s t : SymbolTable) (start : String) (a : s.Id) (b : t.Id) : Prop :=
  ∃ name, s.Reaches start name ∧ s.lookup name = some a ∧ t.lookup name = some b

theorem biUnique_meets (start : String) : Relator.BiUnique (Meets s t start) := by
  constructor
  · rintro a a' b ⟨name, _, ha, hb⟩ ⟨name', _, ha', hb'⟩
    have hname : name = name' := (name_of_lookup hb).symm.trans (name_of_lookup hb')
    rw [← hname, ha] at ha'
    exact Option.some.inj ha'
  · rintro a b b' ⟨name, _, ha, hb⟩ ⟨name', _, ha', hb'⟩
    have hname : name = name' := (name_of_lookup ha).symm.trans (name_of_lookup ha')
    rw [← hname, hb] at hb'
    exact Option.some.inj hb'

/-- Tables that agree on what can be reached from a name match at the positions of what is
    reached. -/
theorem matching_meets {start : String}
    (h : ∀ name, s.Reaches start name → s.find? name = t.find? name) :
    Matching (Meets s t start) where
  get_eq := by
    rintro a b ⟨name, hreaches, ha, hb⟩
    have hfound := h name hreaches
    simpa [find?, ha, hb] using hfound
  lookup := by
    rintro a b ⟨name, hreaches, ha, _⟩ next hnext
    have hfound : s.find? name = some (s.get a) := by rw [find?, ha, Option.map_some]
    have hreached : s.Reaches start next := .step hreaches hfound hnext
    have hsame := h next hreached
    unfold find? at hsame
    cases hs : s.lookup next with
    | none =>
      rw [hs, Option.map_none, eq_comm, Option.map_eq_none_iff] at hsame
      rw [hsame]
      exact .none
    | some c =>
      cases ht : t.lookup next with
      | none => simp [hs, ht] at hsame
      | some d => exact .some ⟨next, hreached, hs, ht⟩

end SymbolTable

open SymbolTable

/-- **Resolution is local.**  If two tables have the same declarations, or none, under
    every name that can be reached from `name`, then fresh resolvers over them give the
    same width, the same value, the same enumerators and the same constants for the
    declaration `name`, or the same error with the same names, numbers and path. -/
theorem resolution_local (s t : SymbolTable) (name : String)
    (selection selection' : Selection)
    (h : ∀ reached, s.Reaches name reached → s.find? reached = t.find? reached) (a : s.Id)
    (b : t.Id) (ha : s.lookup name = some a) (hb : t.lookup name = some b) :
    let r : Resolver s := { selection := selection }
    let r' : Resolver t := { selection := selection' }
    (r.run (widthOf a)).1 = (r'.run (widthOf b)).1 ∧
      (r.run (valueOf a)).1 = (r'.run (valueOf b)).1 ∧
      (r.run (enumerators a)).1 = (r'.run (enumerators b)).1 ∧
      (r.run (parameter a)).1 = (r'.run (parameter b)).1 := by
  intro r r'
  have hR := matching_meets h
  have hunique := biUnique_meets (s := s) (t := t) name
  have hab : Meets s t name a b := ⟨name, .start, ha, hb⟩
  have hr : Resolver.Idle r := (Resolver.Reached.fresh selection).idle
  have hr' : Resolver.Idle r' := (Resolver.Reached.fresh selection').idle
  refine ⟨?_, ?_, ?_, ?_⟩
  · exact Resolver.run_eq_of_alike hR hunique (.quantity hab .width) hr hr'
  · exact Resolver.run_eq_of_alike hR hunique (.quantity hab .value) hr hr'
  · exact Resolver.run_eq_of_alike hR hunique (alike_enumerators hR hab) hr hr'
  · exact Resolver.run_eq_of_alike hR hunique (alike_parameter hR hab) hr hr'

/-- `b` and `c` form a circle, which is entered at the width of `b`.  In the second table
    they stand the other way round and behind a declaration that uses one of them; the
    circle is reported in the same way. -/
theorem circle_local :
    let b : Decl := .parameter { name := "b", value := .ref "c" .value }
    let c : Decl := .parameter { name := "c", value := .ref "b" .width }
    let s : SymbolTable := { decls := [b, c] }
    let t : SymbolTable :=
      { decls := [.typedef { name := "d", base := none, width := .ref "c" .value }, c, b] }
    (({} : Resolver s).run (widthOf ⟨0, by decide⟩)).1 =
        (({} : Resolver t).run (widthOf ⟨2, by decide⟩)).1 ∧
      (({} : Resolver t).run (widthOf ⟨2, by decide⟩)).1 =
        .error (.cycle ["b", "c", "b"]) := by
  intro b c s t
  have hreached : ∀ name, s.Reaches "b" name → name = "b" ∨ name = "c" := by
    intro name h
    induction h with
    | start => exact .inl rfl
    | step _ hfound hnext ih =>
      rcases ih with rfl | rfl
      · cases hfound
        exact .inr (List.mem_singleton.mp hnext)
      · cases hfound
        exact .inl (List.mem_singleton.mp hnext)
  have hagree : ∀ name, s.Reaches "b" name → s.find? name = t.find? name := by
    intro name h
    rcases hreached name h with rfl | rfl <;> rfl
  have hlocal := resolution_local s t "b" .off .off hagree
    ⟨0, by decide⟩ ⟨2, by decide⟩ rfl rfl
  exact ⟨hlocal.1, rfl⟩

end WireSchema
