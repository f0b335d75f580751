import Mathlib.Data.List.Lex
import WireSchema.Files.Discovery
import WireSchema.Proofs.Lists
import WireSchema.Proofs.Paths

/-!
# The order of paths

Paths are compared component by component, and names byte by byte (`Path.Before`).  The
search for files compares the names below a directory in this way, for names of any type
that bytes tell apart.  All paths below one directory begin with its components, so they
are in the order of the names that follow.
-/

namespace WireSchema

/-! ### Lexicographic order -/

section Lexicographic

variable {α : Type} [DecidableEq α] {le : α → α → Bool}

theorem lexLe_total (htotal : ∀ a b, (le a b || le b a) = true) (as bs : List α) :
    (lexLe le as bs || lexLe le bs as) = true := by
  induction as generalizing bs with
  | nil => rfl
  | cons a as ih =>
    cases bs with
    | nil => rfl
    | cons b bs =>
      by_cases hab : a = b
      · simpa [lexLe, hab] using ih bs
      · simpa [lexLe, hab, Ne.symm hab] using htotal a b

theorem lexLe_antisymm (hantisymm : ∀ a b, le a b = true → le b a = true → a = b)
    {as bs : List α} (hab : lexLe le as bs = true) (hba : lexLe le bs as = true) :
    as = bs := by
  induction as generalizing bs with
  | nil =>
    cases bs with
    | nil => rfl
    | cons b bs => cases hba
  | cons a as ih =>
    cases bs with
    | nil => cases hab
    | cons b bs =>
      by_cases heq : a = b
      · subst heq
        rw [lexLe, if_pos rfl] at hab hba
        rw [ih hab hba]
      · rw [lexLe, if_neg heq] at hab
        rw [lexLe, if_neg (Ne.symm heq)] at hba
        exact (heq (hantisymm a b hab hba)).elim

theorem lexLe_trans (htrans : ∀ a b c, le a b = true → le b c = true → le a c = true)
    (hantisymm : ∀ a b, le a b = true → le b a = true → a = b) {as bs cs : List α}
    (hab : lexLe le as bs = true) (hbc : lexLe le bs cs = true) :
    lexLe le as cs = true := by
  induction as generalizing bs cs with
  | nil => rfl
  | cons a as ih =>
    cases bs with
    | nil => cases hab
    | cons b bs =>
      cases cs with
      | nil => cases hbc
      | cons c cs =>
        unfold lexLe at hab hbc ⊢
        by_cases heq : a = b
        · subst heq
          by_cases hac : a = c
          · simp only [hac, if_true] at hab hbc ⊢
            exact ih hab hbc
          · simp only [hac, if_false] at hbc ⊢
            exact hbc
        · by_cases hbc' : b = c
          · subst hbc'
            simpa [heq] using hab
          · simp only [heq, hbc', if_false] at hab hbc
            -- were `a` and `c` the same, `a` and `b` would be
            have hac : a ≠ c := by
              rintro rfl
              exact heq (hantisymm a b hab hbc)
            rw [if_neg hac]
            exact htrans a b c hab hbc

/-- Different lists that are in order differ at a first place, where the elements are in
    order, or the first one ends there. -/
theorem lex_of_lexLe {r : α → α → Prop} (hr : ∀ a b, a ≠ b → le a b = true → r a b)
    {as bs : List α} (hne : as ≠ bs) (h : lexLe le as bs = true) : List.Lex r as bs := by
  induction as generalizing bs with
  | nil =>
    cases bs with
    | nil => exact (hne rfl).elim
    | cons b bs => exact .nil
  | cons a as ih =>
    cases bs with
    | nil => cases h
    | cons b bs =>
      by_cases heq : a = b
      · subst heq
        rw [lexLe, if_pos rfl] at h
        exact .cons (ih (fun htail => hne (by rw [htail])) h)
      · rw [lexLe, if_neg heq] at h
        exact .rel (hr a b heq h)

end Lexicographic

/-! ### Names byte by byte -/

section Names

variable {ν : Type} {bytes : ν → List UInt8}

def NameBefore (bytes : ν → List UInt8) (a b : ν) : Prop :=
  List.Lex (· < ·) (bytes a) (bytes b)

/-- Names come before others, one inside another, at the first place where they differ. -/
def NamesBefore (bytes : ν → List UInt8) : List ν → List ν → Prop :=
  List.Lex (NameBefore bytes)

theorem nameLe_total (bytes : ν → List UInt8) (a b : ν) :
    (nameLe bytes a b || nameLe bytes b a) = true := by
  refine lexLe_total (fun x y => ?_) (bytes a) (bytes b)
  simpa using UInt8.le_total x y

theorem byteLe_antisymm (x y : UInt8) (hxy : decide (x ≤ y) = true)
    (hyx : decide (y ≤ x) = true) : x = y :=
  UInt8.le_antisymm (of_decide_eq_true hxy) (of_decide_eq_true hyx)

theorem nameLe_trans (a b c : ν) (hab : nameLe bytes a b = true)
    (hbc : nameLe bytes b c = true) : nameLe bytes a c = true := by
  refine lexLe_trans (fun x y z hxy hyz => ?_) byteLe_antisymm hab hbc
  exact decide_eq_true (UInt8.le_trans (of_decide_eq_true hxy) (of_decide_eq_true hyz))

theorem nameLe_antisymm (hbytes : Function.Injective bytes) (a b : ν)
    (hab : nameLe bytes a b = true) (hba : nameLe bytes b a = true) : a = b :=
  hbytes (lexLe_antisymm byteLe_antisymm hab hba)

theorem nameBefore_of_nameLe (hbytes : Function.Injective bytes) (a b : ν) (hne : a ≠ b)
    (h : nameLe bytes a b = true) : NameBefore bytes a b := by
  refine lex_of_lexLe (fun x y hxy hle => ?_) (fun hsame => hne (hbytes hsame)) h
  exact UInt8.lt_of_le_of_ne (of_decide_eq_true hle) hxy

variable [DecidableEq ν]

theorem namesLe_total (bytes : ν → List UInt8) (m n : List ν) :
    (namesLe bytes m n || namesLe bytes n m) = true :=
  lexLe_total (nameLe_total bytes) m n

theorem namesLe_antisymm (hbytes : Function.Injective bytes) {m n : List ν}
    (hmn : namesLe bytes m n = true) (hnm : namesLe bytes n m = true) : m = n :=
  lexLe_antisymm (nameLe_antisymm hbytes) hmn hnm

theorem namesLe_trans (hbytes : Function.Injective bytes) (l m n : List ν)
    (hlm : namesLe bytes l m = true) (hmn : namesLe bytes m n = true) :
    namesLe bytes l n = true :=
  lexLe_trans nameLe_trans (nameLe_antisymm hbytes) hlm hmn

theorem namesBefore_of_namesLe (hbytes : Function.Injective bytes) {m n : List ν}
    (hne : m ≠ n) (h : namesLe bytes m n = true) : NamesBefore bytes m n :=
  lex_of_lexLe (nameBefore_of_nameLe hbytes) hne h

end Names

theorem nameBytes_injective : Function.Injective nameBytes := by
  intro a b h
  apply String.toByteArray_inj.mp
  apply ByteArray.ext
  exact Array.toList_inj.mp h

/-! ### Components of paths -/

inductive Component where
  | root
  | here
  | up
  | name (text : String)

/-- The root comes before the current directory, that before a step up, and that before
    every name. -/
inductive Component.Before : Component → Component → Prop
  | root_here : Before .root .here
  | root_up : Before .root .up
  | root_name (b : String) : Before .root (.name b)
  | here_up : Before .here .up
  | here_name (b : String) : Before .here (.name b)
  | up_name (b : String) : Before .up (.name b)
  | names {a b : String} (h : NameBefore nameBytes a b) : Before (.name a) (.name b)

namespace Path

/-- Where a path starts, if it says so.  A point does so at the start of a relative path
    only. -/
def origin (p : Path) : List Component :=
  if p.isAbsolute then [.root] else if p.parts.head? = some "." then [.here] else []

/-- The components of a path.  Empty parts and points are none. -/
def components (p : Path) : List Component :=
  p.origin ++ (p.parts.filter (!isIdle ·)).map fun part =>
    if part = ".." then .up else .name part

def Before (p q : Path) : Prop := List.Lex Component.Before p.components q.components

/-! ### Paths below a directory -/

theorem parts_intercalate {names : List String} (hne : names ≠ [])
    (hslash : ∀ name ∈ names, '/' ∉ name.toList) :
    parts ⟨"/".intercalate names⟩ = names := by
  induction names with
  | nil => exact (hne rfl).elim
  | cons name rest ih =>
    have hname := parts_of_slash_notMem (hslash name List.mem_cons_self)
    cases rest with
    | nil => rw [String.intercalate_singleton, hname]
    | cons next rest =>
      rw [String.intercalate_cons_cons, parts_append_slash, hname,
          ih (List.cons_ne_nil next rest) fun other hother =>
          hslash other (List.mem_cons_of_mem name hother)]
      rfl

structure AreEntryNames (names : List String) : Prop where
  ne_nil : names ≠ []
  isEntryName : ∀ name ∈ names, IsEntryName name

variable {names : List String}

theorem isAbsolute_intercalate (h : AreEntryNames names) :
    isAbsolute ⟨"/".intercalate names⟩ = false := by
  obtain ⟨name, rest, rfl⟩ := List.exists_cons_of_ne_nil h.ne_nil
  have hname := h.isEntryName name List.mem_cons_self
  obtain ⟨c, cs, hcs⟩ := List.exists_cons_of_ne_nil
    (mt String.toList_eq_nil_iff.mp hname.ne_empty)
  have hc : c ≠ '/' := by
    rintro rfl
    exact hname.slash_notMem (by simp [hcs])
  cases rest with
  | nil => simpa [isAbsolute, hcs] using hc
  | cons next rest => simpa [isAbsolute, hcs, String.intercalate_cons_cons] using hc

theorem isAbsolute_below (p : Path) (h : AreEntryNames names) :
    (p.below names).isAbsolute = p.isAbsolute :=
  p.isAbsolute_join_of_relative (isAbsolute_intercalate h)

theorem parts_below (p : Path) (h : AreEntryNames names) :
    (p.below names).parts = p.dirParts ++ names := by
  rw [below, p.parts_join_of_relative (isAbsolute_intercalate h),
    parts_intercalate h.ne_nil fun name hname => (h.isEntryName name hname).slash_notMem]

theorem parts_eq_dirParts_append (p : Path) :
    p.parts = p.dirParts ∨ p.parts = p.dirParts ++ [""] := by
  unfold dirParts
  split
  · right
    rename_i hlast
    exact (List.dropLast_append_getLast? "" hlast).symm
  · left
    rfl

theorem isIdle_eq_false {name : String} (h : IsEntryName name) :
    isIdle name = false ∧ name ≠ ".." := by
  have hname := h.isName
  simp only [FileTree.isName, Bool.not_eq_true', Bool.or_eq_false_iff] at hname
  exact ⟨hname.1, ne_of_beq_false hname.2⟩

theorem origin_below (p : Path) (h : AreEntryNames names) :
    (p.below names).origin = p.origin := by
  have hhead : (p.dirParts ++ names).head? = some "." ↔ p.parts.head? = some "." := by
    cases hdir : p.dirParts with
    | cons part parts =>
      rcases p.parts_eq_dirParts_append with hparts | hparts <;> simp [hparts, hdir]
    | nil =>
      obtain ⟨name, rest, rfl⟩ := List.exists_cons_of_ne_nil h.ne_nil
      have hname : name ≠ "." := by
        rintro rfl
        exact absurd (h.isEntryName "." List.mem_cons_self).isName (by decide)
      rcases p.parts_eq_dirParts_append with hparts | hparts <;> simp [hparts, hdir, hname]
  unfold origin
  rw [p.isAbsolute_below h, p.parts_below h]
  simp only [hhead]

/-- The names below a path are further components of it. -/
theorem components_below (p : Path) (h : AreEntryNames names) :
    (p.below names).components = p.components ++ names.map .name := by
  have hdirs : p.parts.filter (!isIdle ·) = p.dirParts.filter (!isIdle ·) := by
    rcases p.parts_eq_dirParts_append with hparts | hparts
    · rw [hparts]
    · rw [hparts, List.filter_append]
      simp [isIdle]
  have hnames : names.filter (!isIdle ·) = names := by
    apply List.filter_eq_self.mpr
    intro name hname
    simp [(isIdle_eq_false (h.isEntryName name hname)).1]
  have hmap : names.map (fun part => if part = ".." then Component.up else .name part) =
      names.map .name := by
    apply List.map_congr_left
    intro name hname
    exact if_neg (isIdle_eq_false (h.isEntryName name hname)).2
  unfold components
  rw [p.origin_below h, p.parts_below h, List.filter_append, List.map_append, hdirs,
      hnames, hmap, List.append_assoc]

/-- Below a path, the order of names is that of paths. -/
theorem before_below (p : Path) {m n : List String} (hm : AreEntryNames m)
    (hn : AreEntryNames n) (h : NamesBefore nameBytes m n) :
    (p.below m).Before (p.below n) := by
  unfold Before
  rw [p.components_below hm, p.components_below hn]
  apply List.Lex.append_left
  exact lex_map (fun _ _ h => .names h) h

end Path

end WireSchema
