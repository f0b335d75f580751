import Mathlib.Data.List.Perm.Basic
import WireSchema.Proofs.Lists
import WireSchema.Proofs.Table

/-!
# Which declarations can be registered

Registration goes through the declarations in their order and collects errors.  Whether
there are any does not depend on that order: each declaration must be well formed by
itself, and names and generated identifiers must be pairwise distinct (`Registrable`).
The recursions of registration all carry what they have seen so far, so each is read
through one lemma that says when it finds nothing.
-/

namespace WireSchema

/-! ### Members -/

/-- Members are in order if each follows the rule and none stands twice. -/
theorem memberFaultFrom?_eq_none_iff {owner : String} {endings : List String}
    {rule : NameRule} {seen members : List String} :
    memberFaultFrom? owner endings rule seen members = none ↔
      (∀ member ∈ members, memberRule? endings rule member = none) ∧ members.Nodup ∧
        ∀ member ∈ members, member ∉ seen := by
  induction members generalizing seen with
  | nil => simp [memberFaultFrom?]
  | cons member members ih =>
    unfold memberFaultFrom?
    cases hrule : memberRule? endings rule member with
    | some broken => simp [hrule]
    | none =>
      by_cases hseen : member ∈ seen
      · simp [hseen]
      · rw [nodup_cons_and_forall_iff (· ∉ seen) hseen]
        simp [hseen, ih, hrule, and_comm]

theorem memberRule?_eq_none_iff {endings : List String} {rule : NameRule}
    {member : String} :
    memberRule? endings rule member = none ↔
      brokenRule? member = none ∧ hasDoubleUnderscore member.toList = false ∧
        hasEnding endings member = false := by
  unfold memberRule?
  cases brokenRule? member with
  | some broken => simp
  | none =>
    cases hasDoubleUnderscore member.toList <;> cases hasEnding endings member <;> simp

theorem brokenRule?_of_memberRule? {endings : List String} {rule : NameRule}
    {member : String} (h : memberRule? endings rule member = none) :
    brokenRule? member = none := (memberRule?_eq_none_iff.mp h).1

theorem hasDoubleUnderscore_of_memberRule? {endings : List String} {rule : NameRule}
    {member : String} (h : memberRule? endings rule member = none) :
    hasDoubleUnderscore member.toList = false :=
  (memberRule?_eq_none_iff.mp h).2.1

theorem Decl.memberRules_of_memberFault? {d : Decl} {members endings : List String}
    {rule : NameRule} (hmembers : d.members? = some (members, endings, rule))
    (h : d.memberFault? = none) :
    (∀ member ∈ members, memberRule? endings rule member = none) ∧ members.Nodup := by
  unfold memberFault? at h
  rw [hmembers] at h
  cases members with
  | nil => simp
  | cons first rest =>
    obtain ⟨hrules, hnodup, _⟩ := memberFaultFrom?_eq_none_iff.mp h
    exact ⟨hrules, hnodup⟩

/-- The members of a declaration that has members break no rule for all names, and are
    pairwise distinct. -/
theorem Decl.members_of_memberFault? {d : Decl} {members endings : List String}
    {rule : NameRule} (hmembers : d.members? = some (members, endings, rule))
    (h : d.memberFault? = none) :
    (∀ member ∈ members, brokenRule? member = none) ∧ members.Nodup := by
  obtain ⟨hrules, hnodup⟩ := memberRules_of_memberFault? hmembers h
  exact ⟨fun member hmember => brokenRule?_of_memberRule? (hrules member hmember), hnodup⟩

/-! ### Declarations -/

structure Decl.WellFormed (d : Decl) : Prop where
  name : nameFault? d.kind d.name = none
  members : d.memberFault? = none

theorem Decl.WellFormed.brokenRule? {d : Decl} (h : d.WellFormed) :
    WireSchema.brokenRule? d.name = none := by
  have hname := h.name
  unfold nameFault? at hname
  cases hbroken : WireSchema.brokenRule? d.name with
  | none => rfl
  | some broken => simp [hbroken] at hname

namespace SymbolTable

variable {t : SymbolTable}

theorem lookup_push_eq_none_iff {d : Decl} {name : String} :
    (t.push d).lookup name = none ↔ t.lookup name = none ∧ name ≠ d.name := by
  simp [lookup_eq_none_iff_notMem, push]

/-- Nothing is refused exactly if the declarations are well formed and their names new and
    pairwise distinct. -/
theorem declareAll_errors_eq_nil_iff {ds : List Decl} :
    (t.declareAll ds).2 = [] ↔
      (∀ d ∈ ds, d.WellFormed) ∧ (ds.map Decl.name).Nodup ∧
        ∀ name ∈ ds.map Decl.name, t.lookup name = none := by
  induction ds generalizing t with
  | nil => simp [declareAll]
  | cons d ds ih =>
    cases hd : t.refusal? d with
    | some e =>
      rw [declareAll_cons_of_refusal?_eq_some hd]
      simp only [reduceCtorEq, false_iff]
      rintro ⟨hformed, _, hnew⟩
      obtain ⟨hname, hmembers⟩ := hformed d List.mem_cons_self
      have hnone := refusal?_eq_none_iff.mpr
        ⟨hname, hnew d.name List.mem_cons_self, hmembers⟩
      rw [hd] at hnone
      cases hnone
    | none =>
      rw [declareAll_cons_of_refusal?_eq_none hd]
      obtain ⟨hname, hnew, hmembers⟩ := refusal?_eq_none_iff.mp hd
      have hformed : d.WellFormed := ⟨hname, hmembers⟩
      rw [List.map_cons, nodup_cons_and_forall_iff (t.lookup · = none) hnew,
          List.forall_mem_cons]
      simp only [ih, lookup_push_eq_none_iff, hformed, true_and]

/-- Only declarations that are well formed get into a table. -/
theorem wellFormed_of_declareAll {ds : List Decl} (hreg : t.Registered)
    (h : ∀ d ∈ t.decls, d.WellFormed) :
    (t.declareAll ds).1.Registered ∧ ∀ d ∈ (t.declareAll ds).1.decls, d.WellFormed := by
  induction ds generalizing t with
  | nil => exact ⟨hreg, h⟩
  | cons d ds ih =>
    cases hd : t.refusal? d with
    | some e =>
      rw [declareAll_cons_of_refusal?_eq_some hd]
      exact ih hreg h
    | none =>
      rw [declareAll_cons_of_refusal?_eq_none hd]
      refine ih (hreg.push hd) ?_
      obtain ⟨hname, _, hmembers⟩ := refusal?_eq_none_iff.mp hd
      intro other hother
      rcases List.mem_append.mp hother with hother | hother
      · exact h other hother
      · rw [List.mem_singleton.mp hother]
        exact ⟨hname, hmembers⟩

end SymbolTable

/-! ### Generated identifiers -/

def Decl.identifiers (d : Decl) : List String := d.generatedNames.map Prod.fst

/-- There is no clash if no generated name stands twice, nor among those known before. -/
theorem clashesFrom_eq_nil_iff {known generated : List (String × String)} :
    clashesFrom known generated = [] ↔
      (generated.map Prod.fst).Nodup ∧ ∀ name ∈ generated.map Prod.fst, name ∉
        known.map Prod.fst := by
  induction generated generalizing known with
  | nil => simp [clashesFrom]
  | cons entry rest ih =>
    obtain ⟨name, owner⟩ := entry
    unfold clashesFrom
    cases hknown : known.lookup name with
    | some first =>
      have hmem : name ∈ known.map Prod.fst := by
        by_contra hnot
        rw [lookup_eq_none_iff_notMem_keys.mpr hnot] at hknown
        cases hknown
      simp only [reduceCtorEq, false_iff]
      rintro ⟨_, hnew⟩
      exact hnew name List.mem_cons_self hmem
    | none =>
      have hnew := lookup_eq_none_iff_notMem_keys.mp hknown
      rw [List.map_cons, nodup_cons_and_forall_iff (· ∉ known.map Prod.fst) hnew]
      simp only [ih, List.map_append, List.map_cons, List.map_nil, List.mem_append,
          List.mem_singleton, not_or, ne_eq]

/-! ### Registration -/

structure Registrable (decls : List Decl) : Prop where
  wellFormed : ∀ d ∈ decls, d.WellFormed
  nodup_names : (decls.map Decl.name).Nodup
  nodup_identifiers : (decls.flatMap Decl.identifiers).Nodup

theorem Registrable.perm {decls other : List Decl} (hperm : decls.Perm other)
    (h : Registrable decls) : Registrable other where
  wellFormed := fun d hd => h.wellFormed d (hperm.mem_iff.mpr hd)
  nodup_names := (hperm.map Decl.name).nodup_iff.mp h.nodup_names
  nodup_identifiers := (hperm.flatMap_right Decl.identifiers).nodup_iff.mp
    h.nodup_identifiers

namespace SymbolTable

variable {t : SymbolTable}

theorem clashes_eq_nil_iff : t.clashes = [] ↔ (t.decls.flatMap Decl.identifiers).Nodup := by
  unfold clashes
  rw [clashesFrom_eq_nil_iff, List.map_flatMap]
  change (t.decls.flatMap Decl.identifiers).Nodup ∧ _ ↔ _
  simp

/-- **Registration accepts exactly the registrable declarations**, and keeps them as they
    are. -/
theorem ofDecls_eq_ok_iff {decls : List Decl} :
    ofDecls decls = .ok t ↔ t.decls = decls ∧ Registrable decls := by
  constructor
  · intro h
    obtain ⟨hdecls, _⟩ := registered_of_ofDecls h
    unfold ofDecls at h
    rcases hall : declareAll empty decls with ⟨final, rejected⟩
    rw [hall] at h
    simp only [List.isEmpty_iff, List.append_eq_nil_iff] at h
    split at h
    · rename_i hnone
      cases h
      have hrejected : (declareAll empty decls).2 = [] := by
        rw [hall]
        exact hnone.1
      obtain ⟨hformed, hnodup, _⟩ := declareAll_errors_eq_nil_iff.mp hrejected
      have hclashes := clashes_eq_nil_iff.mp hnone.2
      rw [hdecls] at hclashes
      exact ⟨hdecls, hformed, hnodup, hclashes⟩
    · cases h
  · rintro ⟨hdecls, hreg⟩
    have hrejected : (declareAll empty decls).2 = [] :=
      declareAll_errors_eq_nil_iff.mpr ⟨hreg.wellFormed, hreg.nodup_names, fun _ _ => rfl⟩
    obtain ⟨hall, _⟩ := declareAll_spec registered_empty hrejected
    have hfinal : (declareAll empty decls).1 = t := SymbolTable.ext (hall.trans hdecls.symm)
    have hclashes : t.clashes = [] := by
      rw [clashes_eq_nil_iff, hdecls]
      exact hreg.nodup_identifiers
    simp [ofDecls, hrejected, hfinal, hclashes]

end SymbolTable

end WireSchema
