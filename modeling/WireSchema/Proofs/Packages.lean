import Mathlib.Data.List.Perm.Basic
import WireSchema.Proofs.HeaderComments
import WireSchema.Proofs.Resolution

/-!
# Packages are complete and consistent

`Package.Consistent` says what can be relied on in a package of a schema: its items are
the declarations of the schema, each once; what an item refers to stands before it, with
the kind and the width that it is used with; widths add up, and none is zero.  The text of
its header then names only C types that it has declared above (`Grounded`).

It holds of every package that is resolved.
-/

namespace WireSchema

open Plan

/-! ### Items and declarations -/

def FieldType.typeName? : FieldType → Option String
  | .logic _ => none
  | .named name => some name

structure Resolved.Field.IsOf (g : Resolved.Field) (f : WireSchema.Field) : Prop where
  name : g.name = f.name
  docs : g.docs = f.docs
  type : g.type.target?.map Prod.snd = f.type.typeName?

/-- An item is of the kind of a declaration, and has its name, its documentation and its
    members in their order. -/
def Resolved.Item.IsOf : Resolved.Item → Decl → Prop
  | .parameter q, .parameter p => q.name = p.name ∧ q.docs = p.docs
  | .enum q, .enum e =>
    q.name = e.name ∧ q.docs = e.docs ∧
      List.Forall₂ (fun w v => w.name = v.name ∧ w.docs = v.docs) q.values e.values
  | .typedef q, .typedef d => q.name = d.name ∧ q.docs = d.docs ∧ q.base = d.base
  | .struct q, .struct s =>
    q.name = s.name ∧ q.docs = s.docs ∧ List.Forall₂ Resolved.Field.IsOf q.fields s.fields
  | _, _ => False

/-- A package of a schema that is complete and consistent. -/
structure Package.Consistent (schema : Schema) (p : Package) : Prop where
  /-- The items are those of the declarations, in some order. -/
  complete : ∃ decls, decls.Perm schema.decls ∧
    List.Forall₂ Resolved.Item.IsOf p.items decls
  nodup : (p.items.map Resolved.Item.name).Nodup
  struct_width : ∀ s, .struct s ∈ p.items →
    s.width = (s.fields.map Resolved.Field.width).sum
  field_type : ∀ before s after, p.items = before ++ .struct s :: after → ∀ f ∈ s.fields,
    ∀ kind name, f.type.target? = some (kind, name) →
      ∃ item ∈ before, item.name = name ∧ item.kind = kind ∧ item.width = f.width
  typedef_base : ∀ before d after, p.items = before ++ .typedef d :: after →
    ∀ base, d.base = some base → ∃ item ∈ before, item.name = base ∧
    item.kind ≠ .parameter ∧ ∃ count, 1 ≤ count ∧ d.width = item.width * count
  enumerator_lt : ∀ e, .enum e ∈ p.items → ∀ v ∈ e.values, v.value < 2 ^ e.width
  width_pos : ∀ item ∈ p.items, 1 ≤ item.width
  field_width_pos : ∀ s, .struct s ∈ p.items → ∀ f ∈ s.fields, 1 ≤ f.width
  /-- The structs in the text of the header are those of the package, with their fields,
      and every line of the text that declares a member does so with a standard type or
      with a type that a line above it declares. -/
  header : ∀ text, Header.text? p = some text → ∃ body, text = Header.enclose p body ∧
    List.Forall₂ Header.DeclaresStruct (p.items.filterMap Resolved.Item.struct?)
      (Header.structs (Header.wordLines body)) ∧
    ∀ above line below, Header.wordLines body = above ++ line :: below →
      ∀ type member, Header.member? line = some (type, member) →
        type ∈ Header.standardTypes ∨ type ∈ above.filterMap Header.declaredType?

variable {t : SymbolTable} {A : Key t → Nat → Prop} {items : List Resolved.Item}
  {order : List t.Id} {itemAt : t.Id → Resolved.Item}

theorem typeName?_of_typeResolves {type : FieldType} {found : Resolved.FieldType}
    (h : TypeResolves t type found) : found.target?.map Prod.snd = type.typeName? := by
  cases type with
  | logic e =>
    have hnone : found.target? = none := h
    rw [hnone]
    rfl
  | named name =>
    obtain ⟨id, _, _, htarget⟩ := h
    rw [htarget]
    rfl

theorem fields_isOf {fs : List Field} {gs : List Resolved.Field}
    (h : List.Forall₂ (FieldResolves A) fs gs) :
    List.Forall₂ Resolved.Field.IsOf gs fs := by
  refine List.Forall₂.flip (h.imp ?_)
  intro f g hfg
  exact ⟨hfg.name, hfg.docs, typeName?_of_typeResolves hfg.type⟩

/-- A resolved item is the item of its declaration. -/
theorem item_isOf {id : t.Id} {item : Resolved.Item} (h : ItemResolves A id item) :
    item.IsOf (t.get id) := by
  cases item with
  | parameter q =>
    obtain ⟨p, hdecl, _, hname, hdocs, _⟩ := h
    rw [hdecl]
    exact ⟨hname, hdocs⟩
  | enum q =>
    obtain ⟨e, hdecl, _, hname, hdocs, w, _, hvalues⟩ := h
    rw [hdecl]
    refine ⟨hname, hdocs, List.Forall₂.flip ((assignFrom_eq_ok hvalues).imp ?_)⟩
    intro v w hvw
    exact ⟨hvw.1, hvw.2.1⟩
  | typedef q =>
    obtain ⟨d, hdecl, _, hname, hdocs, hbase⟩ := h
    rw [hdecl]
    exact ⟨hname, hdocs, hbase⟩
  | struct q =>
    obtain ⟨s, hdecl, _, hname, hdocs, hfields⟩ := h
    rw [hdecl]
    exact ⟨hname, hdocs, fields_isOf hfields⟩

theorem Resolved.Item.IsOf.name_kind {item : Resolved.Item} {d : Decl} (h : item.IsOf d) :
    item.name = d.name ∧ item.kind = d.kind := by
  cases item <;> cases d <;> first | exact h.elim | exact ⟨h.1, rfl⟩

/-! ### Widths -/

theorem fieldHasWidth_unique {f : Field} {m n : Nat} (hm : FieldHasWidth (t := t) Known f m)
    (hn : FieldHasWidth (t := t) Known f n) : m = n := by
  have hm' := (@yields_fieldWidth t Known f.name f m).mpr hm
  have hn' := (@yields_fieldWidth t Known f.name f n).mpr hn
  exact hm'.unique known_unique hn'

theorem fieldHasWidth_pos (hA : ∀ id w, A ⟨id, .width⟩ w → 1 ≤ w) {f : Field} {w : Nat}
    (h : FieldHasWidth A f w) : 1 ≤ w := by
  unfold FieldHasWidth at h
  cases hf : f.type with
  | logic e =>
    rw [hf] at h
    exact h.2.1
  | named type =>
    rw [hf] at h
    obtain ⟨id, _, _, hw⟩ := h
    exact hA id w hw

theorem sum_pos_of_forall₂ (hA : ∀ id w, A ⟨id, .width⟩ w → 1 ≤ w) {fs : List Field}
    {ws : List Nat} (hfs : fs ≠ []) (h : List.Forall₂ (FieldHasWidth A) fs ws) :
    1 ≤ ws.sum := by
  cases h with
  | nil => exact (hfs rfl).elim
  | cons hw _ =>
    have hpos := fieldHasWidth_pos hA hw
    rw [List.sum_cons]
    omega

/-- A rule that ends gives a positive width, if the widths it asks for are positive. -/
theorem width_pos_of_yields (ht : t.Registered) (hA : ∀ id w, A ⟨id, .width⟩ w → 1 ≤ w)
    {id : t.Id} {n : Nat} (h : Yields A (rule ⟨id, .width⟩) n) : 1 ≤ n := by
  cases hdecl : t.get id with
  | parameter p =>
    obtain ⟨v, _, rfl⟩ := (yields_width_parameter hdecl).mp h
    exact bitWidth_pos v
  | enum e => exact ((yields_width_enum hdecl).mp h).2.1
  | typedef d =>
    cases hbase : d.base with
    | none => exact ((yields_width_logic hdecl hbase).mp h).2.1
    | some base =>
      obtain ⟨count, _, hcount, _, each, ⟨b, _, _, heach⟩, rfl, _⟩ :=
        (yields_width_array hdecl hbase).mp h
      exact Nat.mul_pos (hA b each heach) hcount
  | struct s =>
    obtain ⟨ws, hws, rfl, _⟩ := (yields_width_struct hdecl).mp h
    have hmembers := ht.members (t.get id) (List.get_mem _ _)
    rw [hdecl] at hmembers
    exact sum_pos_of_forall₂ hA (fields_ne_nil_of_memberFault? hmembers) hws

/-- No width is zero, because no struct is empty. -/
theorem width_pos_of_known (ht : t.Registered) {id : t.Id} {n : Nat}
    (h : Known ⟨id, .width⟩ n) : 1 ≤ n := by
  obtain ⟨height, h⟩ := h
  induction height generalizing id n with
  | zero => cases h
  | succ height ih =>
    exact width_pos_of_yields ht (fun b w hw => ih hw) (unroll_succ_eq_ok_iff.mp h)

/-- The width of a struct and the widths of its fields are asked for separately, and they
    agree. -/
theorem struct_width_eq_sum {id : t.Id} {s : StructDef} {w : Nat}
    {gs : List Resolved.Field} (hdecl : t.get id = .struct s) (hw : Known ⟨id, .width⟩ w)
    (hgs : List.Forall₂ (FieldResolves (t := t) Known) s.fields gs) :
    w = (gs.map Resolved.Field.width).sum := by
  obtain ⟨ws, hws, rfl, _⟩ := (yields_width_struct hdecl).mp (known_iff.mp hw)
  have hwidths : List.Forall₂ (FieldHasWidth (t := t) Known) s.fields
      (gs.map Resolved.Field.width) := by
    rw [List.forall₂_map_right_iff]
    exact hgs.imp fun f g hfg => hfg.width
  have hunique : Relator.RightUnique (FieldHasWidth (t := t) Known) :=
    fun f m n hm hn => fieldHasWidth_unique hm hn
  rw [List.right_unique_forall₂' hunique hws hwidths]

/-! ### Items in order -/

namespace Assembled

theorem exists_id (h : Assembled t items order itemAt) {item : Resolved.Item}
    (hitem : item ∈ items) : ∃ id : t.Id, ItemResolves Known id item := by
  rw [h.items_eq] at hitem
  obtain ⟨id, _, rfl⟩ := List.mem_map.mp hitem
  exact ⟨id, h.resolves id⟩

/-- What the declaration of an item refers to has its item before it. -/
theorem exists_before (h : Assembled t items order itemAt)
    {before after : List Resolved.Item} {item : Resolved.Item}
    (hsplit : items = before ++ item :: after) :
    ∃ id : t.Id, ItemResolves Known id item ∧
      ∀ name ∈ (t.get id).references, ∃ b, t.lookup name = some b ∧ itemAt b ∈ before := by
  rw [h.items_eq, List.map_eq_append_iff] at hsplit
  obtain ⟨front, rest, horder, rfl, hrest⟩ := hsplit
  obtain ⟨id, back, rfl, rfl, _⟩ := List.map_eq_cons_iff.mp hrest
  refine ⟨id, h.resolves id, ?_⟩
  intro name hname
  obtain ⟨b, hlookup, hlt⟩ := h.isOrder.before id name hname
  refine ⟨b, hlookup, List.mem_map_of_mem ?_⟩
  by_contra hb
  -- behind the front, `b` would not be before `id`
  rw [horder, List.idxOf_append_of_notMem hb] at hlt
  have hid : (front ++ id :: back).idxOf id ≤ front.length := by
    by_cases hmem : id ∈ front
    · rw [List.idxOf_append_of_mem hmem]
      exact List.idxOf_le_length
    · rw [List.idxOf_append_of_notMem hmem, List.idxOf_cons_self]
      omega
  omega

theorem perm_decls (h : Assembled t items order itemAt) :
    (order.map t.get).Perm t.decls := h.isOrder.perm_decls

theorem isOf (h : Assembled t items order itemAt) :
    List.Forall₂ Resolved.Item.IsOf items (order.map t.get) := by
  rw [h.items_eq, List.forall₂_map_left_iff, List.forall₂_map_right_iff, List.forall₂_same]
  intro id _
  exact item_isOf (h.resolves id)

/-- No two items of a package have one name. -/
theorem nodup_names (h : Assembled t items order itemAt) :
    (items.map Resolved.Item.name).Nodup := by
  have hnames : items.map Resolved.Item.name = (order.map t.get).map Decl.name := by
    rw [h.items_eq, List.map_map, List.map_map]
    apply List.map_congr_left
    intro id _
    exact (item_isOf (h.resolves id)).name_kind.1
  rw [hnames, (h.perm_decls.map Decl.name).nodup_iff]
  exact h.registered.nodup

/-- The type of a field stands before the struct, with the kind and the width that the
    field has. -/
theorem field_type (h : Assembled t items order itemAt)
    {before after : List Resolved.Item} {s : Resolved.Struct}
    (hsplit : items = before ++ .struct s :: after) {f : Resolved.Field}
    (hf : f ∈ s.fields) {kind : Kind} {name : String}
    (htarget : f.type.target? = some (kind, name)) :
    ∃ item ∈ before, item.name = name ∧ item.kind = kind ∧ item.width = f.width := by
  obtain ⟨id, ⟨d, hdecl, _, _, _, hfields⟩, hbefore⟩ := h.exists_before hsplit
  obtain ⟨declared, hmem, hfield⟩ := exists_of_forall₂_left hfields.flip hf
  have htype := hfield.type
  have hwidth := hfield.width
  unfold FieldHasWidth at hwidth
  cases hdeclared : declared.type with
  | logic e =>
    rw [hdeclared] at htype
    cases htarget.symm.trans htype
  | named type =>
    rw [hdeclared] at htype hwidth
    obtain ⟨b, hlookup, _, hb⟩ := htype
    cases htarget.symm.trans hb
    obtain ⟨b', hlookup', _, hknown⟩ := hwidth
    have href : name ∈ (t.get id).references := by
      rw [hdecl]
      exact List.mem_filterMap.mpr ⟨declared, hmem, by rw [hdeclared]; rfl⟩
    obtain ⟨b'', hlookup'', hitem⟩ := hbefore name href
    cases hlookup.symm.trans hlookup'
    cases hlookup.symm.trans hlookup''
    obtain ⟨hname, hkind⟩ := (item_isOf (h.resolves b)).name_kind
    refine ⟨itemAt b, hitem, hname.trans (SymbolTable.name_of_lookup hlookup), hkind, ?_⟩
    exact (h.resolves b).known_width.unique hknown

/-- The base of an array stands before it, and the width is a multiple of the width of the
    base. -/
theorem typedef_base (h : Assembled t items order itemAt)
    {before after : List Resolved.Item} {d : Resolved.Typedef}
    (hsplit : items = before ++ .typedef d :: after) {base : String}
    (hbase : d.base = some base) :
    ∃ item ∈ before, item.name = base ∧ item.kind ≠ .parameter ∧
      ∃ count, 1 ≤ count ∧ d.width = item.width * count := by
  obtain ⟨id, ⟨declared, hdecl, hwidth, _, _, hsame⟩, hbefore⟩ := h.exists_before hsplit
  rw [hsame] at hbase
  obtain ⟨count, _, hcount, _, each, ⟨b, hlookup, hkind, heach⟩, hn, _⟩ :=
    (yields_width_array hdecl hbase).mp (known_iff.mp hwidth)
  have href : base ∈ (t.get id).references := by
    rw [hdecl]
    exact List.mem_append_left _ (Option.mem_toList.mpr hbase)
  obtain ⟨b', hlookup', hitem⟩ := hbefore base href
  cases hlookup.symm.trans hlookup'
  obtain ⟨hname, hkind'⟩ := (item_isOf (h.resolves b)).name_kind
  refine ⟨itemAt b, hitem, hname.trans (SymbolTable.name_of_lookup hlookup), ?_,
      count, hcount, ?_⟩
  · rw [hkind']
    exact hkind
  · rw [(h.resolves b).known_width.unique heach]
    exact hn

theorem enumerator_lt (h : Assembled t items order itemAt) {e : Resolved.Enum}
    (he : .enum e ∈ items) {v : Resolved.Enumerator} (hv : v ∈ e.values) :
    v.value < 2 ^ e.width := by
  obtain ⟨id, declared, _, hwidth, _, _, w, hw, hvalues⟩ := h.exists_id he
  obtain ⟨_, _, _, _, hlt⟩ := exists_of_forall₂_left (assignFrom_eq_ok hvalues).flip hv
  rw [hwidth.unique hw]
  exact hlt

theorem field_width_pos (h : Assembled t items order itemAt) {s : Resolved.Struct}
    (hs : .struct s ∈ items) {f : Resolved.Field} (hf : f ∈ s.fields) : 1 ≤ f.width := by
  obtain ⟨id, d, _, _, _, _, hfields⟩ := h.exists_id hs
  obtain ⟨declared, _, hfield⟩ := exists_of_forall₂_left hfields.flip hf
  exact fieldHasWidth_pos (fun b w hw => width_pos_of_known h.registered hw) hfield.width

end Assembled

/-! ### Names that C can declare -/

theorem registrable_of_resolve {name source : String} {schema : Schema} {tracing : Tracing}
    {p : Package} (h : (Package.resolve name source schema tracing).outcome = .ok p) :
    Registrable schema.decls := by
  obtain ⟨t, ht, _⟩ := exists_order_of_resolve h
  exact (SymbolTable.ofDecls_eq_ok_iff.mp ht).2

/-- C can declare the name of every type that a field refers to, because the type is
    declared in the schema. -/
theorem cName_of_typeResolves (ht : Registrable t.decls) {type : FieldType}
    {found : Resolved.FieldType} (h : TypeResolves t type found) {kind : Kind}
    {name : String} (htarget : found.target? = some (kind, name)) : CName name := by
  cases type with
  | logic e =>
    have hnone : found.target? = none := h
    rw [hnone] at htarget
    cases htarget
  | named type =>
    obtain ⟨id, hlookup, _, hfound⟩ := h
    rw [hfound] at htarget
    cases htarget
    rw [← SymbolTable.name_of_lookup hlookup]
    exact (ht.wellFormed (t.get id) (List.get_mem _ _)).cName

theorem cName_of_fieldTypeName? {type : Resolved.FieldType} {name : String}
    (h : Header.fieldTypeName? type = some name)
    (htypes : ∀ kind target, type.target? = some (kind, target) → CName target) :
    CName name := by
  cases type with
  | logic => cases h
  | enum target =>
    cases h
    exact (capital_constantName (htypes .enum target rfl).isIdentifier).cName
  | typedef target =>
    cases h
    exact htypes .typedef name rfl
  | struct target =>
    cases h
    exact htypes .struct name rfl

/-- An item has the members of its declaration. -/
theorem Resolved.Item.IsOf.memberNames {item : Resolved.Item} {d : Decl} (h : item.IsOf d) :
    item.memberNames = d.memberNames := by
  cases item with
  | parameter q =>
    cases d with
    | parameter declared => rfl
    | _ => exact h.elim
  | enum e =>
    cases d with
    | enum declared => exact map_eq_map_of_forall₂ (h.2.2.imp fun _ _ hvalue => hvalue.1)
    | _ => exact h.elim
  | typedef q =>
    cases d with
    | typedef declared => rfl
    | _ => exact h.elim
  | struct s =>
    cases d with
    | struct declared =>
      exact map_eq_map_of_forall₂ (h.2.2.imp fun _ _ hfield => hfield.name)
    | _ => exact h.elim

/-- C can declare all names of an item whose schema could be registered. -/
theorem Assembled.legible (h : Assembled t items order itemAt) (ht : Registrable t.decls)
    {item : Resolved.Item} (hitem : item ∈ items) : item.Legible := by
  obtain ⟨id, hresolves⟩ := h.exists_id hitem
  have hof := item_isOf hresolves
  have hformed := ht.wellFormed (t.get id) (List.get_mem _ _)
  constructor
  · rw [hof.name_kind.1]
    exact hformed.cName
  · rw [hof.memberNames]
    exact hformed.memberNames.1
  · rintro s rfl f hf type hnamed
    obtain ⟨declared, _, _, _, _, hfields⟩ := hresolves
    obtain ⟨g, _, hfield⟩ := exists_of_forall₂_left hfields.flip hf
    apply cName_of_fieldTypeName? hnamed
    intro kind target htarget
    exact cName_of_typeResolves ht hfield.type htarget

/-- C can declare all names of a package that is resolved. -/
theorem legible_of_resolve {name source : String} {schema : Schema} {tracing : Tracing}
    {p : Package} (h : (Package.resolve name source schema tracing).outcome = .ok p) :
    ∀ item ∈ p.items, item.Legible := by
  obtain ⟨t, hdecls, order, itemAt, hassembled⟩ := assembled_of_resolve h
  have ht : Registrable t.decls := by
    rw [hdecls]
    exact registrable_of_resolve h
  intro item hitem
  exact hassembled.legible ht hitem

/-! ### Types in headers -/

namespace Header

/-- Every line that declares a member does so with a standard type, one of `types`, or a
    type that a line above it declares. -/
def Grounded (types : List String) : List (List String) → Prop
  | [] => True
  | line :: rest =>
    (∀ type member, member? line = some (type, member) → type ∈ standardTypes ∨
        type ∈ types) ∧ Grounded (types ++ (declaredType? line).toList) rest

variable {types : List String} {lines : List (List String)}

theorem grounded_append {first second : List (List String)} :
    Grounded types (first ++ second) ↔
      Grounded types first ∧ Grounded (types ++ first.filterMap declaredType?) second := by
  induction first generalizing types with
  | nil => simp [Grounded]
  | cons line first ih =>
    have htypes : types ++ (line :: first).filterMap declaredType? =
        types ++ (declaredType? line).toList ++ first.filterMap declaredType? := by
      cases hline : declaredType? line <;> simp [hline]
    rw [List.cons_append, Grounded, Grounded, ih, htypes, and_assoc]

theorem Grounded.of_split (h : Grounded [] lines) {above below : List (List String)}
    {line : List String} (hsplit : lines = above ++ line :: below) {type member : String}
    (hmember : member? line = some (type, member)) :
    type ∈ standardTypes ∨ type ∈ above.filterMap declaredType? := by
  rw [hsplit, grounded_append] at h
  exact h.2.1 type member hmember

theorem grounded_of_forall (h : ∀ line ∈ lines, ∀ type member,
    member? line = some (type, member) → type ∈ standardTypes ∨ type ∈ types) :
    Grounded types lines := by
  induction lines generalizing types with
  | nil => trivial
  | cons line lines ih =>
    obtain ⟨hline, hlines⟩ := List.forall_mem_cons.mp h
    refine ⟨hline, ih fun other hother type member hmember => ?_⟩
    rcases hlines other hother type member hmember with hstandard | htype
    · exact .inl hstandard
    · exact .inr (List.mem_append_left _ htype)

/-- The construct of a type declares its C name. -/
theorem ConstructWords.typeName_mem {item : Resolved.Item} (h : ConstructWords item lines)
    (hlegible : item.Legible) (hkind : item.kind ≠ .parameter) :
    typeName item ∈ lines.filterMap declaredType? := by
  have hclosing : ∀ name, isIdentifier name = true →
      declaredType? ["\x7d", name ++ ";"] = some name := by
    intro name hname
    simp [declaredType?, leadingName?_append hname isTail_semicolon]
  have hname := hlegible.name.isIdentifier
  rw [List.mem_filterMap]
  cases h with
  | parameter q => exact (hkind rfl).elim
  | enum e =>
    refine ⟨["\x7d", constantName e.name ++ ";"], by simp, hclosing _ ?_⟩
    exact (capital_constantName hname).identifier
  | typedef d storage =>
    refine ⟨_, List.mem_singleton_self _, ?_⟩
    simp only [declaredType?, if_true]
    exact leadingName?_append hname (isTail_suffix storage)
  | struct s hfields => exact ⟨["\x7d", s.name ++ ";"], by simp, hclosing _ hname⟩

/-- A construct is grounded if the types of its fields are known. -/
theorem ConstructWords.grounded {item : Resolved.Item} (h : ConstructWords item lines)
    (hlegible : item.Legible)
    (htypes : ∀ s, item = .struct s → ∀ f ∈ s.fields, ∀ type,
      fieldTypeName? f.type = some type → type ∈ types) : Grounded types lines := by
  apply grounded_of_forall
  cases h with
  | parameter q => simp
  | enum e =>
    simp only [List.mem_cons, List.mem_append, List.mem_map, List.not_mem_nil, or_false]
    rintro line (rfl | ⟨v, _, rfl⟩ | rfl) type member hmember <;> cases hmember
  | typedef d storage =>
    simp only [List.mem_singleton]
    rintro line rfl type member hmember
    cases hmember
  | struct s hfields =>
    have hdeclares := declaresFields hfields hlegible
    simp only [List.mem_cons, List.mem_append, List.not_mem_nil, or_false]
    rintro line (rfl | hline | rfl) type member hmember
    · cases hmember
    · obtain ⟨f, hf, type', hmember', htype⟩ := exists_of_forall₂_left hdeclares.flip hline
      cases hmember.symm.trans hmember'
      rcases htype with ⟨_, hstandard⟩ | hnamed
      · exact .inl hstandard
      · exact .inr (htypes s rfl f hf type hnamed)
    · cases hmember

/-- Constructs are grounded if every type of a field is known or has its construct
    before. -/
theorem grounded_flatten {items : List Resolved.Item}
    {constructs : List (List (List String))}
    (h : List.Forall₂ ConstructWords items constructs)
    (hlegible : ∀ item ∈ items, item.Legible)
    (htypes : ∀ before s after, items = before ++ .struct s :: after →
      ∀ f ∈ s.fields, ∀ type, fieldTypeName? f.type = some type → type ∈ types ∨
      ∃ item ∈ before, item.kind ≠ .parameter ∧ typeName item = type) :
    Grounded types constructs.flatten := by
  induction h generalizing types with
  | nil => trivial
  | @cons item words items constructs hwords _ ih =>
    obtain ⟨hitem, hitems⟩ := List.forall_mem_cons.mp hlegible
    rw [List.flatten_cons, grounded_append]
    constructor
    · apply hwords.grounded hitem
      rintro s rfl f hf type hnamed
      rcases htypes [] s items rfl f hf type hnamed with hknown | ⟨_, hnone, _⟩
      · exact hknown
      · cases hnone
    · apply ih hitems
      intro before s after hsplit f hf type hnamed
      have hfound := htypes (item :: before) s after (by rw [hsplit]; rfl) f hf type hnamed
      rcases hfound with hknown | ⟨other, hother, hkind, rfl⟩
      · exact .inl (List.mem_append_left _ hknown)
      rcases List.mem_cons.mp hother with rfl | hother
      · exact .inl (List.mem_append_right _ (hwords.typeName_mem hitem hkind))
      · exact .inr ⟨other, hother, hkind, rfl⟩

/-- The C name of the type of a field is that of the item it refers to. -/
theorem exists_target_of_fieldTypeName? {type : Resolved.FieldType} {name : String}
    (h : fieldTypeName? type = some name) :
    ∃ kind target, type.target? = some (kind, target) ∧
      kind ≠ .parameter ∧ ∀ item : Resolved.Item, item.kind = kind → item.name = target →
        typeName item = name := by
  cases type with
  | logic => cases h
  | enum target =>
    cases h
    refine ⟨.enum, target, rfl, by decide, ?_⟩
    rintro item hkind rfl
    cases item <;> first | rfl | cases hkind
  | typedef target =>
    cases h
    refine ⟨.typedef, name, rfl, by decide, ?_⟩
    rintro item hkind rfl
    cases item <;> first | rfl | cases hkind
  | struct target =>
    cases h
    refine ⟨.struct, name, rfl, by decide, ?_⟩
    rintro item hkind rfl
    cases item <;> first | rfl | cases hkind

end Header

/-- The text of a header is grounded: what a field refers to stands before its struct. -/
theorem Assembled.grounded (h : Assembled t items order itemAt)
    (hlegible : ∀ item ∈ items, item.Legible) {constructs : List (List (List String))}
    (hconstructs : List.Forall₂ Header.ConstructWords items constructs) :
    Header.Grounded [] (items.flatMap Header.constantWords ++ constructs.flatten) := by
  rw [Header.grounded_append]
  constructor
  · apply Header.grounded_of_forall
    intro line hline type member hmember
    obtain ⟨item, _, hline⟩ := List.mem_flatMap.mp hline
    obtain ⟨name, value, rfl⟩ := Header.exists_of_mem_constantWords hline
    cases hmember
  · apply Header.grounded_flatten hconstructs hlegible
    intro before s after hsplit f hf type hnamed
    obtain ⟨kind, target, htarget, hkind, htype⟩ :=
      Header.exists_target_of_fieldTypeName? hnamed
    obtain ⟨item, hitem, hname, hsame, _⟩ := h.field_type hsplit hf htarget
    exact .inr ⟨item, hitem, hsame ▸ hkind, htype item hsame hname⟩

/-- **Every package that is resolved is complete and consistent with its schema.** -/
theorem resolve_consistent (name source : String) (schema : Schema) (tracing : Tracing)
    (p : Package) (h : (Package.resolve name source schema tracing).outcome = .ok p) :
    p.Consistent schema := by
  obtain ⟨t, hdecls, order, itemAt, hassembled⟩ := assembled_of_resolve h
  constructor
  · exact ⟨order.map t.get, hdecls ▸ hassembled.perm_decls, hassembled.isOf⟩
  · exact hassembled.nodup_names
  · intro s hs
    obtain ⟨id, d, hdecl, hwidth, _, _, hfields⟩ := hassembled.exists_id hs
    exact struct_width_eq_sum hdecl hwidth hfields
  · intro before s after hsplit f hf kind name htarget
    exact hassembled.field_type hsplit hf htarget
  · intro before d after hsplit base hbase
    exact hassembled.typedef_base hsplit hbase
  · intro e he v hv
    exact hassembled.enumerator_lt he hv
  · intro item hitem
    obtain ⟨id, hitem⟩ := hassembled.exists_id hitem
    exact width_pos_of_known hassembled.registered hitem.known_width
  · intro s hs f hf
    exact hassembled.field_width_pos hs hf
  · intro text htext
    have hlegible := legible_of_resolve h
    obtain ⟨body, constructs, hbody, _, hconstructs, hwords⟩ :=
      Header.exists_wordLines htext hlegible
    refine ⟨body, hbody, ?_, ?_⟩
    · rw [hwords]
      exact Header.forall₂_structs hconstructs hlegible
    · intro above line below hsplit type member hmember
      rw [hwords] at hsplit
      exact (hassembled.grounded hlegible hconstructs).of_split hsplit hmember

/-- The package of the declarations of `laneTable`, whose header can be written. -/
theorem laneTable_consistent :
    ∃ p,
      (Package.resolve "lanes" "lanes.yaml" { decls := laneTable.decls } {}).outcome =
        .ok p ∧
      p.items.map (fun item => (item.name, item.width)) =
        [("N", 3), ("tag_e", 3), ("tags_t", 12), ("lane_t", 16)] ∧
      (Header.text? p).isSome ∧ p.Consistent { decls := laneTable.decls } :=
  ⟨_, rfl, rfl, rfl, resolve_consistent "lanes" "lanes.yaml"
      { decls := laneTable.decls } {} _ rfl⟩

end WireSchema
