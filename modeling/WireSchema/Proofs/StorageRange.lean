import WireSchema.Compile
import WireSchema.Proofs.Lists
import WireSchema.Proofs.Packages
import WireSchema.Proofs.Quantities

/-!
# Which packages have a header

Resolution bounds every width by the largest word.  The header then rounds the widths of
typedefs and of bits in structs up to whole bytes, in word arithmetic, and there the last
seven words overflow.  So a package that is resolved has a header unless such a width is
one of the last seven words; its other artifact is always there.
-/

namespace WireSchema

open Plan

/-! ### Storage -/

theorem Storage.exists_ofWidth?_iff {width : Nat} :
    (∃ storage, Storage.ofWidth? width = some storage) ↔ width + 7 < wordLimit := by
  have hlimit : 64 + 7 < wordLimit := by decide
  unfold Storage.ofWidth?
  split_ifs <;> simp <;> omega

/-- The widths of an item that are rounded up to a C type. -/
def Resolved.Item.storedWidths : Resolved.Item → List Nat
  | .parameter _ => []
  | .enum _ => []
  | .typedef d => [d.width]
  | .struct s =>
    (s.fields.filter fun f => decide (f.type = .logic)).map Resolved.Field.width

def Package.storedWidths (p : Package) : List Nat :=
  p.items.flatMap Resolved.Item.storedWidths

theorem Package.mem_storedWidths {p : Package} {w : Nat} :
    w ∈ p.storedWidths ↔
      (∃ d, .typedef d ∈ p.items ∧ d.width = w) ∨
        ∃ s, .struct s ∈ p.items ∧ ∃ f ∈ s.fields, f.type = .logic ∧ f.width = w := by
  unfold Package.storedWidths
  rw [List.mem_flatMap]
  constructor
  · rintro ⟨item, hitem, hw⟩
    cases item with
    | parameter _ => cases hw
    | enum _ => cases hw
    | typedef d => exact .inl ⟨d, hitem, (List.mem_singleton.mp hw).symm⟩
    | struct s =>
      obtain ⟨f, hf, rfl⟩ := List.mem_map.mp hw
      obtain ⟨hmem, htype⟩ := List.mem_filter.mp hf
      exact .inr ⟨s, hitem, f, hmem, of_decide_eq_true htype, rfl⟩
  · rintro (⟨d, hd, rfl⟩ | ⟨s, hs, f, hf, htype, rfl⟩)
    · exact ⟨_, hd, List.mem_singleton_self _⟩
    · exact ⟨_, hs, List.mem_map_of_mem (List.mem_filter.mpr ⟨hf, decide_eq_true htype⟩)⟩

/-! ### Headers -/

namespace Header

theorem exists_fieldLines?_iff {f : Resolved.Field} :
    (∃ lines, fieldLines? f = some lines) ↔
      (f.type = .logic → f.width + 7 < wordLimit) := by
  have hstorage := @Storage.exists_ofWidth?_iff f.width
  unfold fieldLines? fieldDeclaration?
  cases f.type <;> simp [fieldTypeName?, Option.bind_eq_some_iff, ← hstorage]

/-- An item has a construct if its widths can be rounded up to bytes without an
    overflow. -/
theorem exists_construct?_iff {item : Resolved.Item} :
    (∃ construct, construct? item = some construct) ↔
      ∀ w ∈ item.storedWidths, w + 7 < wordLimit := by
  cases item with
  | parameter q => simp [construct?, Resolved.Item.storedWidths]
  | enum e => simp [construct?, Resolved.Item.storedWidths]
  | typedef d =>
    have hstorage := @Storage.exists_ofWidth?_iff d.width
    simp [construct?, typedefLines?_eq_some_iff, Resolved.Item.storedWidths, ← hstorage]
  | struct s =>
    have hfields : (∃ lines, s.fields.mapM fieldLines? = some lines) ↔
        ∀ w ∈ (Resolved.Item.struct s).storedWidths, w + 7 < wordLimit := by
      simp only [exists_mapM_iff, exists_fieldLines?_iff, Resolved.Item.storedWidths,
          List.forall_mem_map, List.forall_mem_filter, decide_eq_true_eq]
    rw [← hfields]
    simp [construct?, structLines?_eq_some_iff]

/-- A package has a header exactly if all widths can be rounded up. -/
theorem exists_text?_iff {p : Package} :
    (∃ text, text? p = some text) ↔ ∀ w ∈ p.storedWidths, w + 7 < wordLimit := by
  have hconstructs : (∃ constructs, p.items.mapM construct? = some constructs) ↔
      ∀ w ∈ p.storedWidths, w + 7 < wordLimit := by
    simp only [exists_mapM_iff, exists_construct?_iff, Package.storedWidths,
        List.forall_mem_flatMap]
  -- nothing but a construct can be missing in a header
  rw [← hconstructs]
  simp [text?, lines?, body?_eq_some_iff, Option.bind_eq_some_iff]

end Header

theorem emit_c_eq_ok_iff {p : Package} {text : String} :
    Target.c.emit p = .ok text ↔ Header.text? p = some text := by
  cases htext : Header.text? p <;> simp [Target.emit, Target.emit?, htext]

theorem emit_c_eq_overflow_iff {p : Package} :
    Target.c.emit p = .error .overflow ↔ ¬ ∃ text, Header.text? p = some text := by
  cases htext : Header.text? p <;> simp [Target.emit, Target.emit?, htext]

/-! ### Packages that are resolved -/

theorem fieldHasWidth_lt {t : SymbolTable} {f : Field} {w : Nat}
    (h : FieldHasWidth (t := t) Known f w) : w < wordLimit := by
  unfold FieldHasWidth at h
  cases htype : f.type with
  | logic e =>
    rw [htype] at h
    exact h.2.2
  | named type =>
    rw [htype] at h
    obtain ⟨id, _, _, hw⟩ := h
    exact SymbolTable.lt_wordLimit_of_known hw

theorem Assembled.storedWidth_range {t : SymbolTable} {p : Package} {order : List t.Id}
    {itemAt : t.Id → Resolved.Item} (h : Assembled t p.items order itemAt) {w : Nat}
    (hw : w ∈ p.storedWidths) : 1 ≤ w ∧ w < wordLimit := by
  rcases Package.mem_storedWidths.mp hw with ⟨d, hd, rfl⟩ | ⟨s, hs, f, hf, htype, rfl⟩
  · obtain ⟨id, hitem⟩ := h.exists_id hd
    exact ⟨width_pos_of_known h.registered hitem.known_width,
        SymbolTable.lt_wordLimit_of_known hitem.known_width⟩
  · obtain ⟨id, declared, _, _, _, _, hfields⟩ := h.exists_id hs
    obtain ⟨g, _, hfield⟩ := exists_of_forall₂_left hfields.flip hf
    exact ⟨h.field_width_pos hs hf, fieldHasWidth_lt hfield.width⟩

/-- **When a schema that is accepted has its artifacts.**  The widths that the header
    rounds up are positive words.  The header is there if none of them is above
    `2 ^ 64 - 8`, and otherwise it ends in an overflow; the dump is always there. -/
theorem emit_of_resolve (name source : String) (schema : Schema) (tracing : Tracing)
    (p : Package) (h : (Package.resolve name source schema tracing).outcome = .ok p) :
    (∀ w ∈ p.storedWidths, 1 ≤ w ∧ w < wordLimit) ∧
      ((∃ text, Target.c.emit p = .ok text) ↔ ∀ w ∈ p.storedWidths, w ≤ wordLimit - 8) ∧
      (Target.c.emit p = .error .overflow ↔ ∃ w ∈ p.storedWidths, wordLimit - 8 < w) ∧
      ∃ text, Target.json.emit p = .ok text := by
  obtain ⟨t, _, order, itemAt, hassembled⟩ := assembled_of_resolve h
  have hlimit : 8 ≤ wordLimit := by decide
  have hheader : (∃ text, Header.text? p = some text) ↔
      ∀ w ∈ p.storedWidths, w ≤ wordLimit - 8 := by
    rw [Header.exists_text?_iff]
    apply forall₂_congr
    intro w _
    omega
  refine ⟨fun w hw => hassembled.storedWidth_range hw, ?_, ?_, Dump.text p, rfl⟩
  · simp only [emit_c_eq_ok_iff]
    exact hheader
  · rw [emit_c_eq_overflow_iff, hheader]
    simp

/-- The package of `laneTable` stores twelve bits and four, and has both artifacts. -/
theorem laneTable_emits :
    ∃ p,
      (Package.resolve "lanes" "lanes.yaml" { decls := laneTable.decls } {}).outcome =
        .ok p ∧
      p.storedWidths = [12, 4] ∧ (∃ text, Target.c.emit p = .ok text) ∧
        ∃ text, Target.json.emit p = .ok text := by
  have hemit := emit_of_resolve "lanes" "lanes.yaml" { decls := laneTable.decls } {} _ rfl
  exact ⟨_, rfl, rfl, hemit.2.1.mpr (by decide), hemit.2.2.2⟩

/-- A bit vector as wide as a literal can say, and an array of two of them. -/
def widestPair : Schema where
  decls :=
    [.typedef { name := "half_t", base := none, width := .literal 9223372036854775807,
                docs := { summary := "One half" } },
     .typedef { name := "pair_t", base := some "half_t", width := .literal 2,
                docs := { summary := "Two halves" } }]

/-- The pair is accepted, at two bits below `2 ^ 64`, and its header overflows. -/
theorem widestPair_overflows :
    ∃ p, (Package.resolve "pkg" "pkg.yis" widestPair {}).outcome = .ok p ∧
      p.storedWidths = [2 ^ 63 - 1, 2 ^ 64 - 2] ∧ Target.c.emit p = .error .overflow :=
  ⟨_, rfl, rfl, rfl⟩

end WireSchema
