import Mathlib.Data.List.Basic
import Mathlib.Data.List.Forall2
import Mathlib.Data.List.Nodup
import Mathlib.Logic.Relator

/-!
# Lists, options and outcomes

Facts about lists that several theories share: lists related entry by entry, maps that can
fail, texts put together from parts.
-/

namespace WireSchema

/-! ### Related lists -/

theorem exists_of_forall₂_left {α β : Type} {R : α → β → Prop} {as : List α} {bs : List β}
    (h : List.Forall₂ R as bs) {a : α} (ha : a ∈ as) : ∃ b ∈ bs, R a b := by
  induction h with
  | nil => cases ha
  | @cons _ b _ bs hab _ ih =>
    rcases List.mem_cons.mp ha with rfl | ha
    · exact ⟨b, List.mem_cons_self, hab⟩
    · obtain ⟨b', hb', hab'⟩ := ih ha
      exact ⟨b', List.mem_cons_of_mem b hb', hab'⟩

theorem exists_forall₂_iff {α β : Type} {R : α → β → Prop} {as : List α} :
    (∃ bs, List.Forall₂ R as bs) ↔ ∀ a ∈ as, ∃ b, R a b := by
  constructor
  · rintro ⟨bs, h⟩ a ha
    obtain ⟨b, _, hab⟩ := exists_of_forall₂_left h ha
    exact ⟨b, hab⟩
  · intro h
    induction as with
    | nil => exact ⟨[], .nil⟩
    | cons a as ih =>
      obtain ⟨b, hab⟩ := h a List.mem_cons_self
      obtain ⟨bs, hbs⟩ := ih fun a' ha' => h a' (List.mem_cons_of_mem a ha')
      exact ⟨b :: bs, .cons hab hbs⟩

theorem map_eq_map_of_forall₂ {α β γ : Type} {f : α → γ} {g : β → γ} {as : List α}
    {bs : List β} (h : List.Forall₂ (fun a b => f a = g b) as bs) :
    as.map f = bs.map g := by
  induction h with
  | nil => rfl
  | cons hab _ ih => rw [List.map_cons, List.map_cons, hab, ih]

/-- Related lists that are cut at related elements stay related. -/
theorem takeWhile_ne_of_forall₂ {α β : Type} [DecidableEq α] [DecidableEq β]
    {S : α → β → Prop} (hS : Relator.BiUnique S) {a : α} {b : β} (hab : S a b)
    {as : List α} {bs : List β} (h : List.Forall₂ S as bs) :
    List.Forall₂ S (as.takeWhile (· != a)) (bs.takeWhile (· != b)) := by
  induction h with
  | nil => exact .nil
  | @cons c d cs ds hcd _ ih =>
    by_cases hc : c = a
    · have hd : d = b := hS.2 (hc ▸ hcd) hab
      simp [hc, hd]
    · have hd : d ≠ b := by
        intro hd
        exact hc (hS.1 (hd ▸ hcd) hab)
      simp only [List.takeWhile_cons, bne_iff_ne, ne_eq, hc, hd, not_false_eq_true, if_true]
      exact .cons hcd ih

/-! ### Partial maps -/

/-- All results are there if each is. -/
theorem mapM_eq_some_iff {α β : Type} {f : α → Option β} {xs : List α} {ys : List β} :
    xs.mapM f = some ys ↔ List.Forall₂ (fun x y => f x = some y) xs ys := by
  induction xs generalizing ys with
  | nil => simp [eq_comm]
  | cons x xs ih =>
    simp only [List.mapM_cons, Option.bind_eq_bind, Option.bind_eq_some_iff,
        Option.pure_def, Option.some.injEq, ih]
    constructor
    · rintro ⟨y, hy, rest, hrest, rfl⟩
      exact .cons hy hrest
    · rintro (_ | ⟨hy, hrest⟩)
      exact ⟨_, hy, _, hrest, rfl⟩

theorem exists_mapM_iff {α β : Type} {f : α → Option β} {xs : List α} :
    (∃ ys, xs.mapM f = some ys) ↔ ∀ x ∈ xs, ∃ y, f x = some y := by
  simp only [mapM_eq_some_iff, exists_forall₂_iff]

theorem none_or_some_of_map_eq {α β : Type} {f : α → β} {a b : Option α}
    (h : a.map f = b.map f) :
    (a = none ∧ b = none) ∨ ∃ x y, a = some x ∧ b = some y ∧ f x = f y := by
  cases a <;> cases b <;> simp_all

/-! ### Outcomes -/

theorem except_toOption_eq_some_iff {ε α : Type} {x : Except ε α} {a : α} :
    x.toOption = some a ↔ x = .ok a := by
  cases x <;> simp [Except.toOption]

theorem except_bind_eq_ok_iff {ε α β : Type} {x : Except ε α} {f : α → Except ε β} {b : β} :
    (x >>= f) = .ok b ↔ ∃ a, x = .ok a ∧ f a = .ok b := by
  cases x with
  | error e => simp [bind, Except.bind]
  | ok a => simp [bind, Except.bind]

theorem mapM_eq_ok_iff {ε α β : Type} {f : α → Except ε β} {as : List α} {bs : List β} :
    as.mapM f = .ok bs ↔ List.Forall₂ (fun a b => f a = .ok b) as bs := by
  induction as generalizing bs with
  | nil => cases bs <;> simp [pure, Except.pure]
  | cons a as ih =>
    simp only [List.mapM_cons, except_bind_eq_ok_iff, List.forall₂_cons_left_iff, ← ih]
    constructor
    · rintro ⟨b, hb, rest, hrest, ⟨⟩⟩
      exact ⟨b, rest, hb, hrest, rfl⟩
    · rintro ⟨b, rest, hb, hrest, rfl⟩
      exact ⟨b, hb, rest, hrest, rfl⟩

theorem exists_of_mapM_ok {ε α β : Type} {f : α → Except ε β} {as : List α} {bs : List β}
    (h : as.mapM f = .ok bs) {b : β} (hb : b ∈ bs) : ∃ a ∈ as, f a = .ok b :=
  exists_of_forall₂_left (mapM_eq_ok_iff.mp h).flip hb

theorem exists_split_cons_iff {α : Type} {P Q : α → Prop} {a : α} {as : List α} :
    (∃ good bad rest, a :: as = good ++ bad :: rest ∧ (∀ x ∈ good, P x) ∧ Q bad) ↔
      Q a ∨ P a ∧ ∃ good bad rest, as = good ++ bad :: rest ∧
        (∀ x ∈ good, P x) ∧ Q bad := by
  constructor
  · rintro ⟨good, bad, rest, heq, hgood, hbad⟩
    cases good with
    | nil =>
      cases heq
      exact .inl hbad
    | cons first good =>
      cases heq
      rw [List.forall_mem_cons] at hgood
      exact .inr ⟨hgood.1, good, bad, rest, rfl, hgood.2, hbad⟩
  · rintro (ha | ⟨ha, good, bad, rest, rfl, hgood, hbad⟩)
    · exact ⟨[], a, as, rfl, List.forall_mem_nil P, ha⟩
    · exact ⟨a :: good, bad, rest, rfl, List.forall_mem_cons.mpr ⟨ha, hgood⟩, hbad⟩

/-- The first failure is the failure of the whole. -/
theorem mapM_eq_error_iff {ε α β : Type} {f : α → Except ε β} {as : List α} {e : ε} :
    as.mapM f = .error e ↔
      ∃ good bad rest, as = good ++ bad :: rest ∧ (∀ a ∈ good, ∃ b, f a = .ok b) ∧
        f bad = .error e := by
  induction as with
  | nil => simp [pure, Except.pure]
  | cons a as ih =>
    rw [exists_split_cons_iff, ← ih, List.mapM_cons]
    cases f a with
    | error e' => simp [bind, Except.bind]
    | ok b => cases as.mapM f <;> simp [bind, Except.bind, pure, Except.pure]

/-- What every step keeps, a fold that does not fail keeps. -/
theorem foldlM_invariant {ε σ α : Type} {f : σ → α → Except ε σ} {P : σ → Prop}
    (hstep : ∀ s a s', P s → f s a = .ok s' → P s') {as : List α} {s s' : σ} (hs : P s)
    (h : as.foldlM f s = .ok s') : P s' := by
  induction as generalizing s with
  | nil =>
    cases h
    exact hs
  | cons a as ih =>
    rw [List.foldlM_cons, except_bind_eq_ok_iff] at h
    obtain ⟨mid, hmid, h⟩ := h
    exact ih (hstep s a mid hs hmid) h

/-! ### Distinct entries -/

/-- What is left after `x` must be new and distinct, and other than `x`. -/
theorem nodup_cons_and_forall_iff {α : Type} (new : α → Prop) {x : α} {xs : List α}
    (hx : new x) :
    (x :: xs).Nodup ∧ (∀ y ∈ x :: xs, new y) ↔ xs.Nodup ∧ ∀ y ∈ xs, new y ∧ y ≠ x := by
  rw [List.nodup_cons]
  constructor
  · rintro ⟨⟨hdistinct, hnodup⟩, hnew⟩
    refine ⟨hnodup, fun y hy => ⟨hnew y (List.mem_cons_of_mem x hy), ?_⟩⟩
    rintro rfl
    exact hdistinct hy
  · rintro ⟨hnodup, hnew⟩
    refine ⟨⟨fun hmem => (hnew x hmem).2 rfl, hnodup⟩, ?_⟩
    intro y hy
    rcases List.mem_cons.mp hy with rfl | hy
    · exact hx
    · exact (hnew y hy).1

theorem lookup_eq_none_iff_notMem_keys {β : Type} {known : List (String × β)}
    {name : String} : known.lookup name = none ↔ name ∉ known.map Prod.fst := by
  rw [List.lookup_eq_none_iff]
  simp only [List.mem_map, not_exists, not_and, bne_iff_ne, ne_eq]
  constructor
  · intro h entry hentry hname
    exact h entry hentry hname.symm
  · intro h entry hentry hname
    exact h entry hentry hname.symm

theorem takeWhile_ne_append_cons {α : Type} [DecidableEq α] {x : α} {above below : List α}
    (h : x ∉ above) : (above ++ x :: below).takeWhile (· != x) = above := by
  rw [List.takeWhile_append_of_pos]
  · simp
  · intro a ha
    exact bne_iff_ne.mpr fun hax => h (hax ▸ ha)

/-- An entry of a list stands in it for a last time. -/
theorem exists_last_split {α : Type} {a : α} {as : List α} (h : a ∈ as) :
    ∃ before after, as = before ++ a :: after ∧ a ∉ after := by
  obtain ⟨after, before, hreverse, hafter⟩ :=
    List.eq_append_cons_of_mem (List.mem_reverse.mpr h)
  refine ⟨before.reverse, after.reverse, ?_, by simpa using hafter⟩
  rw [← List.reverse_reverse as, hreverse]
  simp

theorem getElem?_concat_eq_some_iff {α : Type} {as : List α} {a b : α} {i : Nat} :
    (as ++ [a])[i]? = some b ↔ as[i]? = some b ∨ i = as.length ∧ b = a := by
  rcases Nat.lt_trichotomy i as.length with hlt | rfl | hgt
  · rw [List.getElem?_append_left hlt]
    simp [Nat.ne_of_lt hlt]
  · simp [eq_comm]
  · have hlength : (as ++ [a]).length ≤ i := by
      simp only [List.length_append, List.length_singleton]
      omega
    rw [List.getElem?_eq_none hlength, List.getElem?_eq_none (Nat.le_of_lt hgt)]
    simp [Nat.ne_of_gt hgt]

/-! ### Texts with separators -/

theorem head?_intercalate {sep : List Char} {parts : List (List Char)} {c : Char}
    (hparts : ∀ part ∈ parts, part ≠ []) (h : (sep.intercalate parts).head? = some c) :
    ∃ part ∈ parts, part.head? = some c := by
  cases parts with
  | nil => cases h
  | cons part rest =>
    refine ⟨part, List.mem_cons_self, ?_⟩
    obtain ⟨first, more, rfl⟩ := List.exists_cons_of_ne_nil (hparts part List.mem_cons_self)
    cases rest with
    | nil => simpa using h
    | cons next rest => simpa [List.intercalate_cons_cons] using h

theorem getLast?_intercalate {sep : List Char} {parts : List (List Char)} {c : Char}
    (hparts : ∀ part ∈ parts, part ≠ []) (h : (sep.intercalate parts).getLast? = some c) :
    ∃ part ∈ parts, part.getLast? = some c := by
  induction parts with
  | nil => cases h
  | cons part rest ih =>
    cases rest with
    | nil => exact ⟨part, List.mem_cons_self, by simpa using h⟩
    | cons next rest =>
      have hnext : sep.intercalate (next :: rest) ≠ [] := by
        have hfirst := hparts next (List.mem_cons_of_mem part List.mem_cons_self)
        cases rest <;> simp [hfirst]
      obtain ⟨last, hlast⟩ := Option.ne_none_iff_exists'.mp
        (mt List.getLast?_eq_none_iff.mp hnext)
      rw [List.intercalate_cons_cons, List.getLast?_append, hlast, Option.some_or] at h
      have hrest : ∀ other ∈ next :: rest, other ≠ [] :=
        fun other hother => hparts other (List.mem_cons_of_mem part hother)
      obtain ⟨found, hfound, hend⟩ := ih hrest (hlast.trans h)
      exact ⟨found, List.mem_cons_of_mem part hfound, hend⟩

theorem mem_intercalate {sep : List Char} {parts : List (List Char)} {c : Char}
    (h : c ∈ sep.intercalate parts) : c ∈ sep ∨ ∃ part ∈ parts, c ∈ part := by
  induction parts with
  | nil => cases h
  | cons part rest ih =>
    cases rest with
    | nil => exact .inr ⟨part, List.mem_cons_self, by simpa using h⟩
    | cons next rest =>
      rw [List.intercalate_cons_cons, List.mem_append, List.mem_append] at h
      rcases h with (h | h) | h
      · exact .inr ⟨part, List.mem_cons_self, h⟩
      · exact .inl h
      · rcases ih h with hsep | ⟨found, hfound, hc⟩
        · exact .inl hsep
        · exact .inr ⟨found, List.mem_cons_of_mem part hfound, hc⟩

/-! ### Lexicographic order -/

theorem lex_map {α β : Type} {r : α → α → Prop} {s : β → β → Prop} {f : α → β}
    (hf : ∀ a b, r a b → s (f a) (f b)) {as bs : List α} (h : List.Lex r as bs) :
    List.Lex s (as.map f) (bs.map f) := by
  induction h with
  | nil => exact .nil
  | cons _ ih => exact .cons ih
  | rel hab => exact .rel (hf _ _ hab)

end WireSchema
