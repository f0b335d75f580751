import WireSchema.Proofs.Quantities

/-!
# The causes of resolution errors

An error that is not a circle is about one declaration: the one that was asked about, or
one that it reaches through references.  `SymbolTable.Justifies` says for each kind of
error what must be true of that declaration, in the terms of the language and not of the
resolver.

An error comes up through any number of computations inside one another, but it is raised
by the rule of one quantity (`Resolver.cause_of_answer_error`), and its rule knows only
the quantities it has asked for.  So what is left is to read the objections of a rule over
the known quantities.  Two of them cannot come up: no expression of a schema is too large
for a word, and only parameters are asked for their value.
-/

namespace WireSchema

open Plan

namespace SymbolTable

/-- What an error says is true of the declaration at `r`. -/
inductive Justifies (t : SymbolTable) (r : t.Id) : Error → Prop
  | unknownReference {name : String} (hname : name ∈ (t.get r).references)
      (hnone : ∀ id : t.Id, (t.get id).name ≠ name) :
      Justifies t r (.unknownReference (t.get r).name name)
  | notParameter {name : String} {id : t.Id} (hread : .ref name .value ∈ (t.get r).exprs)
      (hfound : t.lookup name = some id) (hkind : (t.get id).kind ≠ .parameter) :
      Justifies t r (.wrongKind (t.get r).name name (t.get id).kind .parameter)
  | notType {name : String} {id : t.Id} (huse : (t.get r).UsesAsType name)
      (hfound : t.lookup name = some id) (hkind : (t.get id).kind = .parameter) :
      Justifies t r (.wrongKind (t.get r).name name .parameter .type)
  | invalidWidth {name : String} {e : Expr} {k : Int}
      (hwidth : (t.get r).GivesWidth name e) (hk : t.Evaluates e k) (hle : k ≤ 0) :
      Justifies t r (.invalidWidth name k)
  | arrayOverflow {d : Typedef} {base : String} {each count : Nat}
      (hdecl : t.get r = .typedef d) (hbase : d.base = some base)
      (heach : t.TypeWidth base each) (hcount : t.Evaluates d.width count)
      (hover : 2 ^ 64 ≤ each * count) : Justifies t r (.widthOverflow d.name)
  | structOverflow {s : StructDef} {fs : List Field} {total : Nat}
      (hdecl : t.get r = .struct s) (hfields : fs <+: s.fields)
      (htotal : t.FieldsWidth fs total) (hover : 2 ^ 64 ≤ total) :
      Justifies t r (.widthOverflow s.name)
  | invalidParameter {p : Parameter} {k : Int} (hdecl : t.get r = .parameter p)
      (hvalue : p.value = .literal k) (hneg : k < 0) :
      Justifies t r (.invalidParameter p.name k)

variable {t : SymbolTable}

/-! ### From a quantity to the declarations it needs -/

theorem reaches_of_needs {a b : Key t} (h : Relation.ReflTransGen Needs a b) :
    Relation.ReflTransGen t.Refers a.id b.id := by
  induction h with
  | refl => exact .refl
  | tail _ hbc ih =>
    rcases asks_rule hbc with ⟨_, rfl⟩ | ⟨_, hrefers⟩
    · exact ih
    · exact ih.tail hrefers

/-- Only a parameter is asked for its value. -/
def Answerable (key : Key t) : Prop :=
  key.quantity = .value → (t.get key.id).kind = .parameter

theorem Answerable.of_needs {a b : Key t} (ha : Answerable a)
    (h : Relation.ReflTransGen Needs a b) : Answerable b := by
  cases h with
  | refl => exact ha
  | tail _ hcb => exact kind_of_asks_rule hcb

/-! ### Objections over known quantities -/

theorem known_eq_holds (ht : t.Signed) : Known = t.Holds := by
  funext key n
  exact propext (known_iff_holds ht)

theorem not_tooWide {e : Expr} {z : Int} (hsigned : e.Signed)
    (hz : Denotes (t := t) Known e z) : z < (wordLimit : Int) := by
  by_contra hwide
  obtain ⟨n, rfl⟩ := Int.eq_ofNat_of_zero_le (show 0 ≤ z by omega)
  have hlt := lt_wordLimit_of_denotes hsigned hz
  omega

/-- A value that is out of range is a negative literal. -/
theorem literal_of_outOfRange {e : Expr} {z : Int} (hsigned : e.Signed)
    (hz : Denotes (t := t) Known e z) (hrange : word? z = none) :
    e = .literal z ∧ z < 0 := by
  have hlt := not_tooWide hsigned hz
  have hneg : z < 0 := by
    by_contra hpos
    obtain ⟨n, rfl⟩ := Int.eq_ofNat_of_zero_le (show 0 ≤ z by omega)
    rw [word?_eq_some_iff.mpr ⟨rfl, by omega⟩] at hrange
    cases hrange
  match e with
  | .literal k =>
    obtain rfl : z = k := hz
    exact ⟨rfl, hneg⟩
  | .ref name .value =>
    obtain ⟨_, v, _, _, _, rfl⟩ := hz
    omega
  | .ref name .width =>
    obtain ⟨_, w, _, _, rfl⟩ := hz
    omega

/-- What a rule objects to by itself is true of the declaration. -/
theorem justifies_of_objection (ht : t.Signed) {key : Key t} (hkey : Answerable key)
    {e : Error} (h : Objection Known key e) : t.Justifies key.id e := by
  have hsigned := ht.get key.id
  have hholds := known_eq_holds ht
  cases h with
  | unknownReference hname hnone =>
    exact .unknownReference hname (lookup_eq_none_iff.mp hnone)
  | notParameter hread hfound hkind => exact .notParameter hread hfound hkind
  | notType huse hfound hkind => exact .notType huse hfound hkind
  | tooNarrow hwidth hz hnarrow =>
    rw [hholds] at hz
    exact .invalidWidth hwidth (evaluates_of_denotes hz) (by omega)
  | tooWide hwidth hz hwide =>
    have hlt := not_tooWide (hsigned _ hwidth.mem_exprs) hz
    omega
  | array hdecl hbase heach hcount hover =>
    rw [hholds] at heach hcount
    exact .arrayOverflow hdecl hbase (typeWidth_of_holds heach)
      (evaluates_of_denotes hcount) hover
  | struct hdecl hfields hws hover =>
    rw [hholds] at hws
    exact .structOverflow hdecl hfields (fieldsWidth_of_holds hws) hover
  | @outOfRange p z hdecl hz hrange =>
    have hvalue : p.value.Signed := hsigned p.value (by simp [hdecl, Decl.exprs])
    obtain ⟨hliteral, hneg⟩ := literal_of_outOfRange hvalue hz hrange
    exact .invalidParameter hdecl hliteral hneg
  | noValue hvalue hkind => exact absurd (hkey hvalue) hkind

theorem justified_of_answer_error (ht : t.Signed) {key : Key t} (hkey : Answerable key)
    {e : Error} (hcycle : ∀ path, e ≠ .cycle path)
    (h : Resolver.answer (Resolver.depthLimit t) [] key = .error e) :
    ∃ r, Relation.ReflTransGen t.Refers key.id r ∧ t.Justifies r e := by
  have hleads : Resolver.Leads [] key := by
    intro k hk
    cases hk
  rcases Resolver.cause_of_answer_error Resolver.roomy_start hleads h with
    ⟨k, hneeds, hraise⟩ | ⟨_, path, hpath⟩
  · exact ⟨k.id, reaches_of_needs hneeds, justifies_of_objection ht (hkey.of_needs hneeds)
        (raises_rule hraise)⟩
  · exact absurd hpath (hcycle path)

/-- **Every error but a circle is true of the schema.**  If a width, or the value of a
    parameter, cannot be computed and the reason is not a circle, then a declaration that
    is reached through references justifies the error. -/
theorem error_justified (t : SymbolTable) (ht : t.Signed) (selection : Selection)
    (d : t.Id) (e : Error) (hcycle : ∀ path, e ≠ .cycle path)
    (h : (({ selection := selection } : Resolver t).run (Plan.widthOf d)).1 = .error e ∨
      (t.get d).kind = .parameter ∧
      (({ selection := selection } : Resolver t).run (Plan.valueOf d)).1 = .error e) :
    ∃ r, Relation.ReflTransGen t.Refers d r ∧ t.Justifies r e := by
  have hreached := Resolver.Reached.fresh (t := t) selection
  rcases h with h | ⟨hkind, h⟩
  · rw [Plan.widthOf, Resolver.run_ask hreached] at h
    have hkey : Answerable (⟨d, .width⟩ : Key t) := by
      intro hvalue
      cases hvalue
    exact justified_of_answer_error ht hkey hcycle h
  · rw [Plan.valueOf, Resolver.run_ask hreached] at h
    exact justified_of_answer_error ht (fun _ => hkind) hcycle h

/-- An array of a struct whose third field makes it too wide, although each field is
    narrow enough. -/
def bulkTable : SymbolTable where
  decls :=
    [.typedef { name := "bulk_t", base := some "block_t", width := .literal 2 },
     .struct { name := "block_t", fields :=
       [{ name := "low", type := .named "half_t" },
        { name := "high", type := .named "half_t" },
        { name := "spare", type := .logic (.ref "half_t" .width) }] },
     .typedef { name := "half_t", base := none, width := .literal 9223372036854775807 }]

/-- The error of the array is that of its base, and the sum of the fields up to the third
    one justifies it. -/
theorem bulkTable_error_justified :
    bulkTable.Signed ∧
      (({} : Resolver bulkTable).run (Plan.widthOf ⟨0, by decide⟩)).1 =
        .error (.widthOverflow "block_t") ∧
      ∃ r, Relation.ReflTransGen bulkTable.Refers ⟨0, by decide⟩ r ∧
        bulkTable.Justifies r (.widthOverflow "block_t") := by
  have hsigned : bulkTable.Signed := by decide
  have herror : (({} : Resolver bulkTable).run (Plan.widthOf ⟨0, by decide⟩)).1 =
      .error (.widthOverflow "block_t") := by
    decide
  exact ⟨hsigned, herror, error_justified bulkTable hsigned .off _ _ nofun (.inl herror)⟩

end SymbolTable

end WireSchema
