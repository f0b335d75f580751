import Mathlib.Data.List.Nodup
import WireSchema.Proofs.FileTrees
import WireSchema.Proofs.PathOrder

/-!
# The schema files of a directory

The search sorts what it finds in a directory after it has sorted what it finds in the
directories in it.  That comes to the same as listing all files, keeping those with the
extension, and sorting once (`search_eq_matching`): both are permutations of one list, and
sorted.

A directory holds no two entries of one name.  So the list of all files, which is made by
following the entries as they are listed, has the same members as the reading of the tree
at all places (`mem_files_iff`), and the search depends on nothing but what stands at the
places (`search_congr`).  Directories that list their entries in another order stand for
the same places (`Relisted.look`).

Up to this point names can be of any type that bytes tell apart.  The rest is about trees
whose names are texts, where what was found has a path.
-/

namespace WireSchema

namespace Entry

variable {ν : Type} [DecidableEq ν] {e found : Entry ν} {entries : List (ν × Entry ν)}
  {name : ν} {names : List ν} {content : ByteArray}

/-! ### Trees with distinct names -/

/-- No directory holds two entries of one name. -/
inductive Distinct : Entry ν → Prop
  | file (content : ByteArray) : Distinct (.file content)
  | dir {entries : List (ν × Entry ν)} (nodup : (entries.map Prod.fst).Nodup)
      (distinct : ∀ entry ∈ entries, Distinct entry.2) : Distinct (.dir entries)

theorem mem_of_lookup (h : entries.lookup name = some e) : (name, e) ∈ entries := by
  obtain ⟨before, after, rfl, _⟩ := List.lookup_eq_some_iff.mp h
  simp

theorem lookup_eq_some_iff_mem (hnodup : (entries.map Prod.fst).Nodup) :
    entries.lookup name = some e ↔ (name, e) ∈ entries := by
  refine ⟨mem_of_lookup, fun hmem => ?_⟩
  obtain ⟨before, after, rfl⟩ := List.append_of_mem hmem
  rw [List.map_append, List.map_cons, List.nodup_append] at hnodup
  refine List.lookup_eq_some_iff.mpr ⟨before, after, rfl, fun entry hentry => ?_⟩
  rw [bne_iff_ne]
  exact (hnodup.2.2 entry.1 (List.mem_map_of_mem hentry) name List.mem_cons_self).symm

theorem find?_cons_eq_some_iff {rest : List ν} :
    e.find? (name :: rest) = some found ↔
      ∃ entries child, e = .dir entries ∧ entries.lookup name = some child ∧
        child.find? rest = some found := by
  cases e with
  | file bytes => simp [find?]
  | dir entries =>
    rw [find?]
    cases hchild : entries.lookup name <;> simp [hchild]

theorem Distinct.of_find? (h : e.Distinct) (hfind : e.find? names = some found) :
    found.Distinct := by
  induction names generalizing e with
  | nil =>
    rw [find?, Option.some.injEq] at hfind
    exact hfind ▸ h
  | cons name rest ih =>
    obtain ⟨entries, child, rfl, hchild, hrest⟩ := find?_cons_eq_some_iff.mp hfind
    cases h with
    | dir nodup distinct => exact ih (distinct _ (mem_of_lookup hchild)) hrest

/-! ### The list of all files -/

omit [DecidableEq ν] in
theorem filesIn_eq (entries : List (ν × Entry ν)) :
    filesIn entries = entries.flatMap fun entry => entry.2.files.map fun file =>
      (entry.1 :: file.1, file.2) := by
  induction entries with
  | nil => rfl
  | cons entry entries ih =>
    rw [filesIn, ih]
    rfl

/-- The list of files has the files that names lead to, and no others. -/
theorem mem_files_iff (h : e.Distinct) :
    (names, content) ∈ e.files ↔ e.find? names = some (.file content) := by
  induction h generalizing names with
  | file old =>
    rw [files, List.mem_singleton]
    cases names with
    | nil => simp [find?, eq_comm]
    | cons name rest => simp [find?]
  | @dir entries nodup distinct ih =>
    rw [files, filesIn_eq, List.mem_flatMap]
    cases names with
    | nil => simp [find?]
    | cons name rest =>
      constructor
      · rintro ⟨entry, hentry, hfile⟩
        obtain ⟨⟨below, old⟩, hbelow, heq⟩ := List.mem_map.mp hfile
        cases heq
        apply find?_cons_eq_some_iff.mpr
        exact ⟨entries, entry.2, rfl, (lookup_eq_some_iff_mem nodup).mpr hentry,
          (ih entry hentry).mp hbelow⟩
      · intro hfind
        obtain ⟨_, child, heq, hchild, hrest⟩ := find?_cons_eq_some_iff.mp hfind
        cases heq
        have hmem := mem_of_lookup hchild
        exact ⟨(name, child), hmem, List.mem_map.mpr
            ⟨(rest, content), (ih _ hmem).mpr hrest, rfl⟩⟩

omit [DecidableEq ν] in
/-- No two files of a tree have the same names. -/
theorem nodup_files (h : e.Distinct) : (e.files.map Prod.fst).Nodup := by
  induction h with
  | file content => simp [files]
  | @dir entries nodup distinct ih =>
    rw [files, filesIn_eq, List.map_flatMap, List.nodup_flatMap]
    constructor
    · intro entry hentry
      rw [List.map_map]
      have hcons := (ih entry hentry).map (List.cons_injective (a := entry.1))
      rwa [List.map_map] at hcons
    · -- files below different entries have different first names
      apply (List.pairwise_map.mp nodup).imp
      intro entry other hne below hbelow hother
      simp only [List.map_map, List.mem_map] at hbelow hother
      obtain ⟨file, _, rfl⟩ := hbelow
      obtain ⟨old, _, hsame⟩ := hother
      exact hne (List.cons.inj hsame).1.symm

theorem look_eq_file_iff :
    e.look names = .file content ↔ e.find? names = some (.file content) := by
  unfold look
  rcases e.find? names with _ | (old | entries) <;> simp [spot]

theorem look_append (h : e.find? names = some found) (more : List ν) :
    e.look (names ++ more) = found.look more := by
  unfold look
  rw [find?_append, h]
  rfl

/-! ### Other orders of the entries -/

/-- Two trees that differ in the order in which their directories list the entries. -/
inductive Relisted : Entry ν → Entry ν → Prop
  | file (content : ByteArray) : Relisted (.file content) (.file content)
  | dir {entries others : List (ν × Entry ν)}
      (perm : (entries.map Prod.fst).Perm (others.map Prod.fst))
      (relisted : ∀ name e other,
        (name, e) ∈ entries → (name, other) ∈ others → Relisted e other) :
      Relisted (.dir entries) (.dir others)

omit [DecidableEq ν] in
theorem exists_of_mem_names {others : List (ν × Entry ν)}
    (hperm : (entries.map Prod.fst).Perm (others.map Prod.fst)) (h : (name, e) ∈ entries) :
    ∃ other, (name, other) ∈ others := by
  have hmem : name ∈ others.map Prod.fst := hperm.mem_iff.mp (List.mem_map_of_mem h)
  obtain ⟨⟨_, other⟩, hother, rfl⟩ := List.mem_map.mp hmem
  exact ⟨other, hother⟩

namespace Relisted

variable {other : Entry ν}

omit [DecidableEq ν] in
theorem distinct (h : Relisted e other) (hnames : e.Distinct) : other.Distinct := by
  induction h with
  | file content => exact .file content
  | @dir entries others perm relisted ih =>
    cases hnames with
    | dir nodup distinct =>
      refine .dir (perm.nodup_iff.mp nodup) ?_
      rintro ⟨name, old⟩ hold
      obtain ⟨first, hfirst⟩ := exists_of_mem_names perm.symm hold
      exact ih name first old hfirst hold (distinct (name, first) hfirst)

/-- Trees that differ in the listing of their directories have the same at every place. -/
theorem look (h : Relisted e other) (hnames : e.Distinct) : other.look = e.look := by
  induction h with
  | file content => rfl
  | @dir entries others perm relisted ih =>
    cases hnames with
    | dir nodup distinct =>
      funext names
      cases names with
      | nil => rfl
      | cons name rest =>
        rw [look_dir_cons, look_dir_cons]
        cases hchild : entries.lookup name with
        | none =>
          have hnone : others.lookup name = none := by
            rw [Option.eq_none_iff_forall_ne_some]
            intro old hold
            obtain ⟨first, hfirst⟩ := exists_of_mem_names perm.symm (mem_of_lookup hold)
            rw [(lookup_eq_some_iff_mem nodup).mpr hfirst] at hchild
            cases hchild
          rw [hnone]
        | some child =>
          have hmem := mem_of_lookup hchild
          obtain ⟨old, hold⟩ := exists_of_mem_names perm hmem
          rw [(lookup_eq_some_iff_mem (perm.nodup_iff.mp nodup)).mpr hold, Option.map_some,
            Option.map_some, ih name child old hmem hold (distinct _ hmem)]

end Relisted

end Entry

/-! ### Extensions -/

/-- A name has the extension, up to the case of ASCII letters: it follows the last point,
    and that is not the first byte. -/
def HasExtension (ext name : List UInt8) : Prop :=
  ∃ stem suffix, stem ≠ [] ∧ 46 ∉ suffix ∧ name = stem ++ 46 :: suffix ∧
    suffix.map lowerByte = ext.map lowerByte

/-- An extension follows the last point of a name, and something stands before the
    point. -/
theorem nameExtension?_eq_some_iff {name suffix : List UInt8} :
    nameExtension? name = some suffix ↔
      ∃ stem, stem ≠ [] ∧ 46 ∉ suffix ∧ name = stem ++ 46 :: suffix := by
  constructor
  · intro h
    unfold nameExtension? at h
    split at h
    · rename_i first stem ext hsplit
      cases h
      obtain ⟨hname, hnone⟩ := Text.splitLast?_eq_some_iff.mp hsplit
      exact ⟨first :: stem, List.cons_ne_nil first stem, hnone, hname⟩
    · cases h
  · rintro ⟨stem, hstem, hnone, rfl⟩
    obtain ⟨first, stem, rfl⟩ := List.exists_cons_of_ne_nil hstem
    unfold nameExtension?
    rw [Text.splitLast?_append_mark hnone]

theorem hasExtension_iff {ext : List UInt8} (hext : ext.map lowerByte = ext)
    (name : List UInt8) : hasExtension ext name = true ↔ HasExtension ext name := by
  unfold hasExtension HasExtension
  rw [beq_iff_eq, Option.map_eq_some_iff, hext]
  simp only [nameExtension?_eq_some_iff]
  constructor
  · rintro ⟨suffix, ⟨stem, hstem, hnone, hname⟩, hlower⟩
    exact ⟨stem, suffix, hstem, hnone, hname, hlower⟩
  · rintro ⟨stem, suffix, hstem, hnone, hname, hlower⟩
    exact ⟨suffix, ⟨stem, hstem, hnone, hname⟩, hlower⟩

namespace Entry

variable {ν : Type} [DecidableEq ν] {bytes : ν → List UInt8} {ext : List UInt8}
  {e : Entry ν}

/-! ### Sorting at every level and sorting once -/

def endsIn (bytes : ν → List UInt8) (ext : List UInt8) (names : List ν) : Bool :=
  names.getLast?.any fun name => hasExtension ext (bytes name)

def matching (bytes : ν → List UInt8) (ext : List UInt8) (e : Entry ν) : List (List ν) :=
  ((e.files.map Prod.fst).filter (endsIn bytes ext)).mergeSort (namesLe bytes)

omit [DecidableEq ν] in
/-- What holds of files, and of a directory if it holds of its entries, holds of all
    entries. -/
theorem induction {motive : Entry ν → Prop} (file : ∀ content, motive (.file content))
    (dir : ∀ entries, (∀ entry ∈ entries, motive entry.2) → motive (.dir entries))
    (e : Entry ν) : motive e := by
  cases e with
  | file content => exact file content
  | dir entries =>
    refine dir entries fun entry hentry => ?_
    have hsmaller : sizeOf entry.2 < 1 + sizeOf entries := by
      have hlt := List.sizeOf_lt_of_mem hentry
      obtain ⟨name, e⟩ := entry
      simp only [Prod.mk.sizeOf_spec] at hlt ⊢
      omega
    exact induction file dir entry.2
termination_by sizeOf e

omit [DecidableEq ν] in
theorem ne_nil_of_mem_filesIn {entries : List (ν × Entry ν)} {file : List ν × ByteArray}
    (h : file ∈ filesIn entries) : file.1 ≠ [] := by
  rw [filesIn_eq] at h
  obtain ⟨entry, _, hfile⟩ := List.mem_flatMap.mp h
  obtain ⟨below, _, rfl⟩ := List.mem_map.mp hfile
  exact List.cons_ne_nil _ _

omit [DecidableEq ν] in
/-- Whether a file below a directory has the extension does not depend on the name of the
    directory. -/
theorem filter_endsIn_cons (name : ν) (entries : List (ν × Entry ν)) :
    (((filesIn entries).map fun file => (name :: file.1, file.2)).map Prod.fst).filter
        (endsIn bytes ext) =
      (((filesIn entries).map Prod.fst).filter (endsIn bytes ext)).map (name :: ·) := by
  rw [List.map_map, List.filter_map, List.filter_map, List.map_map]
  congr 1
  apply List.filter_congr
  intro file hfile
  obtain ⟨first, rest, hfirst⟩ := List.exists_cons_of_ne_nil (ne_nil_of_mem_filesIn hfile)
  simp [endsIn, hfirst]

/-- What is found among entries is, up to the order, what the list of all files holds. -/
theorem perm_searchIn {entries : List (ν × Entry ν)}
    (h : ∀ entry ∈ entries, (search bytes ext entry.2).Perm
      ((entry.2.files.map Prod.fst).filter (endsIn bytes ext))) :
    (searchIn bytes ext entries).Perm
      (((filesIn entries).map Prod.fst).filter (endsIn bytes ext)) := by
  induction entries with
  | nil =>
    rw [searchIn]
    exact .nil
  | cons entry entries ih =>
    obtain ⟨hentry, hrest⟩ := List.forall_mem_cons.mp h
    obtain ⟨name, content | inner⟩ := entry
    · rw [searchIn, filesIn, files, List.map_append, List.filter_append]
      cases hext : hasExtension ext (bytes name) with
      | true => simpa [endsIn, hext] using ih hrest
      | false => simpa [endsIn, hext] using ih hrest
    · rw [searchIn, filesIn, files, List.map_append, List.filter_append, filter_endsIn_cons]
      rw [files] at hentry
      exact (hentry.map _).append (ih hrest)

theorem perm_search (e : Entry ν) :
    (search bytes ext e).Perm ((e.files.map Prod.fst).filter (endsIn bytes ext)) := by
  induction e using Entry.induction with
  | file content => simp [search, files, endsIn]
  | dir entries ih =>
    rw [search, files]
    exact (List.mergeSort_perm _ _).trans (perm_searchIn ih)

theorem pairwise_search (hbytes : Function.Injective bytes) (e : Entry ν) :
    (search bytes ext e).Pairwise (namesLe bytes · · = true) := by
  cases e with
  | file content => simp [search]
  | dir entries =>
    rw [search]
    exact List.pairwise_mergeSort (namesLe_trans hbytes) (namesLe_total bytes) _

theorem eq_of_perm_of_sorted (hbytes : Function.Injective bytes)
    {found other : List (List ν)} (hperm : found.Perm other)
    (hfound : found.Pairwise (namesLe bytes · · = true))
    (hother : other.Pairwise (namesLe bytes · · = true)) : found = other :=
  hperm.eq_of_pairwise (fun _ _ _ _ hmn hnm => namesLe_antisymm hbytes hmn hnm)
    hfound hother

/-- **Sorting at every level comes to the same as sorting once.** -/
theorem search_eq_matching (hbytes : Function.Injective bytes) (ext : List UInt8)
    (e : Entry ν) : search bytes ext e = matching bytes ext e := by
  refine eq_of_perm_of_sorted hbytes ?_ (pairwise_search hbytes e) ?_
  · exact (perm_search e).trans (List.mergeSort_perm _ _).symm
  · exact List.pairwise_mergeSort (namesLe_trans hbytes) (namesLe_total bytes) _

/-! ### What the search finds -/

theorem mem_search_iff (h : e.Distinct) (hext : ext.map lowerByte = ext) (names : List ν) :
    names ∈ search bytes ext e ↔
      (∃ content, e.find? names = some (.file content)) ∧
        ∃ name, names.getLast? = some name ∧ HasExtension ext (bytes name) := by
  rw [(perm_search e).mem_iff]
  simp only [endsIn, List.mem_filter, List.mem_map, Prod.exists, exists_and_right,
      exists_eq_right, mem_files_iff h, Option.any_eq_true, hasExtension_iff hext]

theorem nodup_search (h : e.Distinct) : (search bytes ext e).Nodup :=
  (perm_search e).nodup_iff.mpr ((nodup_files h).filter _)

theorem sorted_search (hbytes : Function.Injective bytes) (h : e.Distinct) :
    (search bytes ext e).Pairwise (NamesBefore bytes) := by
  apply ((pairwise_search hbytes e).and (nodup_search h)).imp
  rintro m n ⟨hle, hne⟩
  exact namesBefore_of_namesLe hbytes hne hle

theorem search_congr (hbytes : Function.Injective bytes) {other : Entry ν}
    (h : e.Distinct) (hother : other.Distinct) (hext : ext.map lowerByte = ext)
    (hlook : other.look = e.look) : search bytes ext other = search bytes ext e := by
  refine eq_of_perm_of_sorted hbytes ?_ (pairwise_search hbytes other)
    (pairwise_search hbytes e)
  apply (List.perm_ext_iff_of_nodup (nodup_search hother) (nodup_search h)).mpr
  intro names
  rw [mem_search_iff hother hext, mem_search_iff h hext]
  simp only [← look_eq_file_iff, hlook]

/-! ### Trees of texts -/

/-- No directory holds two entries of one name, and every name can be one. -/
inductive WellNamed : Entry → Prop
  | file (content : ByteArray) : WellNamed (.file content)
  | dir {entries : List (String × Entry)} (nodup : (entries.map Prod.fst).Nodup)
      (isEntryName : ∀ entry ∈ entries, Path.IsEntryName entry.1)
      (wellNamed : ∀ entry ∈ entries, WellNamed entry.2) : WellNamed (.dir entries)

theorem WellNamed.distinct {e : Entry} (h : e.WellNamed) : e.Distinct := by
  induction h with
  | file content => exact .file content
  | dir nodup _ _ ih => exact .dir nodup ih

theorem WellNamed.of_find? {e found : Entry} {names : List String} (h : e.WellNamed)
    (hfind : e.find? names = some found) :
    found.WellNamed ∧ ∀ name ∈ names, Path.IsEntryName name := by
  induction names generalizing e with
  | nil =>
    rw [find?, Option.some.injEq] at hfind
    exact ⟨hfind ▸ h, by simp⟩
  | cons name rest ih =>
    obtain ⟨entries, child, rfl, hchild, hrest⟩ := find?_cons_eq_some_iff.mp hfind
    have hmem := mem_of_lookup hchild
    cases h with
    | dir nodup isEntryName wellNamed =>
      obtain ⟨hfound, hnames⟩ := ih (wellNamed _ hmem) hrest
      exact ⟨hfound, List.forall_mem_cons.mpr ⟨isEntryName _ hmem, hnames⟩⟩

end Entry

namespace FileTree

variable {t other : FileTree} {e : Entry} {ext : String} {p : Path}
  {place names : List String} {entries : List (String × Entry)} {bytes : ByteArray}

/-! ### Reading what was found -/

theorem entryOf?_append (h : t.entryOf? place = some e) (names : List String) :
    t.entryOf? (names.reverse ++ place) = e.find? names := by
  unfold entryOf? at h ⊢
  rw [List.reverse_append, List.reverse_reverse, Entry.find?_append, h]
  rfl

theorem walk_of_find? {found : Entry} (h : t.entryOf? place = some e)
    (hfind : e.find? names = some found)
    (hnames : ∀ name ∈ names, Path.IsEntryName name) :
    t.walk place names = .ok (names.reverse ++ place) := by
  induction names generalizing place e with
  | nil => rfl
  | cons name rest ih =>
    obtain ⟨entries, child, rfl, hchild, hrest⟩ := Entry.find?_cons_eq_some_iff.mp hfind
    obtain ⟨hname, hnames⟩ := List.forall_mem_cons.mp hnames
    obtain ⟨hidle, hup⟩ := Path.isIdle_eq_false hname
    have hentry : t.entryOf? (name :: place) = some child := by
      rw [← List.singleton_append, ← List.reverse_singleton, entryOf?_append h]
      exact Entry.find?_cons_eq_some_iff.mpr ⟨entries, child, rfl, hchild, rfl⟩
    rw [walk, h]
    simp only [hidle, hchild, beq_false_of_ne hup, Option.isSome_some, if_true]
    rw [List.reverse_cons, List.append_assoc]
    exact ih hentry hrest hnames

/-- A path that leads to a directory does so without a slash at its end. -/
theorem walk_dirParts (h : t.locate p = .ok place) :
    t.walk (t.start p) p.dirParts = .ok place := by
  have hwalk : t.walk (t.start p) p.parts = .ok place := by
    unfold locate at h
    split at h
    · cases h
    · exact h
  rcases p.parts_eq_dirParts_append with hparts | hparts
  · rwa [hparts] at hwalk
  · rw [hparts, walk_append] at hwalk
    cases hdirs : t.walk (t.start p) p.dirParts with
    | error fault => simp [hdirs, Except.bind] at hwalk
    | ok found =>
      simp only [hdirs, Except.bind] at hwalk
      rw [walk_cons_of_dir (look_of_walk_cons hwalk)] at hwalk
      exact hwalk

/-- The path of what is found leads to it. -/
theorem locate_below {found : Entry} (h : t.locate p = .ok place)
    (hentry : t.entryOf? place = some e) (hfind : e.find? names = some found)
    (hnames : Path.AreEntryNames names) :
    t.locate (p.below names) = .ok (names.reverse ++ place) := by
  have hparts := p.parts_below hnames
  have hstart : t.start (p.below names) = t.start p := by
    unfold start
    rw [p.isAbsolute_below hnames]
  have htext : (p.below names).text.isEmpty = false := by
    obtain ⟨above, file, hlast⟩ := (List.eq_nil_or_concat names).resolve_left hnames.ne_nil
    rw [List.concat_eq_append] at hlast
    subst hlast
    rw [← List.append_assoc] at hparts
    exact text_isEmpty_of_parts hparts (hnames.isEntryName file (by simp)).isName
  rw [locate, htext, hstart, hparts, walk_append, walk_dirParts h]
  exact walk_of_find? hentry hfind hnames.isEntryName

theorem read_below (h : t.locate p = .ok place) (hentry : t.entryOf? place = some e)
    (hfind : e.find? names = some (.file bytes)) (hnames : Path.AreEntryNames names) :
    t.read (p.below names) = .ok bytes := by
  unfold read
  rw [locate_below h hentry hfind hnames]
  simp only [entryOf?_append hentry, hfind]

theorem schemaFiles_of_dir (h : t.locate p = .ok place)
    (hentry : t.entryOf? place = some (.dir entries)) (ext : String) :
    t.schemaFiles ext p =
      .ok ((Entry.search nameBytes (nameBytes ext) (.dir entries)).map p.below) := by
  unfold schemaFiles
  simp only [h, hentry]

theorem areEntryNames_of_find? (hroot : t.root.WellNamed)
    (hentry : t.entryOf? place = some (.dir entries))
    (hfind : (Entry.dir entries).find? names = some (.file bytes)) :
    Path.AreEntryNames names where
  ne_nil := by
    rintro rfl
    cases hfind
  isEntryName := ((hroot.of_find? hentry).1.of_find? hfind).2

/-! ### Relisted trees -/

structure Relisted (t other : FileTree) : Prop where
  here : other.here = t.here
  root : t.root.Relisted other.root

theorem Relisted.look (h : t.Relisted other) (hroot : t.root.WellNamed) :
    other.look = t.look := by
  funext place
  exact congrFun (h.root.look hroot.distinct) place.reverse

theorem Relisted.locate (h : t.Relisted other) (hroot : t.root.WellNamed)
    (hlocate : t.locate p = .ok place) : other.locate p = .ok place := by
  have hlook := h.look hroot
  have hwithin : Within t other :=
    ⟨h.here, fun place => by rw [hlook]; exact id, fun place => by rw [hlook]; exact id⟩
  unfold FileTree.locate at hlocate ⊢
  split at hlocate
  · cases hlocate
  · rename_i htext
    rw [if_neg htext, hwithin.start]
    exact hwithin.walk hlocate

/-- The schema files and their order do not depend on how directories list their
    entries. -/
theorem Relisted.schemaFiles (h : t.Relisted other) (hroot : t.root.WellNamed)
    (hext : (nameBytes ext).map lowerByte = nameBytes ext)
    (hlocate : t.locate p = .ok place) (hentry : t.entryOf? place = some (.dir entries)) :
    other.schemaFiles ext p = t.schemaFiles ext p := by
  have hlook := h.root.look hroot.distinct
  obtain ⟨others, hothers⟩ : ∃ others, other.entryOf? place = some (.dir others) := by
    apply exists_of_look_eq_dir
    rw [h.look hroot]
    exact look_of_entryOf? hentry
  have hsame : (Entry.dir others).look = (Entry.dir entries).look := by
    funext names
    rw [← Entry.look_append hothers, ← Entry.look_append hentry, hlook]
  rw [schemaFiles_of_dir hlocate hentry, schemaFiles_of_dir (h.locate hroot hlocate)
      hothers, Entry.search_congr nameBytes_injective (hroot.distinct.of_find? hentry)
      ((h.root.distinct hroot.distinct).of_find? hothers) hext hsame]

theorem areEntryNames_of_mem_search (hroot : t.root.WellNamed)
    (hext : (nameBytes ext).map lowerByte = nameBytes ext)
    (hentry : t.entryOf? place = some (.dir entries))
    (h : names ∈ Entry.search nameBytes (nameBytes ext) (.dir entries)) :
    Path.AreEntryNames names := by
  have hdir := hroot.distinct.of_find? hentry
  obtain ⟨⟨bytes, hfind⟩, _⟩ := (Entry.mem_search_iff hdir hext names).mp h
  exact areEntryNames_of_find? hroot hentry hfind

/-! ### The search for schema files -/

/-- **The search for schema files is complete and free of duplicates, and does not depend
    on how directories list their entries.**

    Names are bytes.  For every tree in whose directories no name stands twice, the search
    finds the files with the extension at any depth, and nothing else, each once, in the
    order of their names, which are compared one after another and byte by byte.  It finds
    the same in the tree with its directories listed in any other order.

    The program searches trees whose names are texts.  What it finds in a directory has
    paths, which are pairwise different, are in the order of paths, and lead to the
    files. -/
theorem schemaFiles_exact :
    (∀ (ext : List UInt8) (e : Entry (List UInt8)), ext.map lowerByte = ext → e.Distinct →
      let found := Entry.search id ext e
      (∀ names, names ∈ found ↔
        (∃ content, e.find? names = some (.file content)) ∧
          ∃ name, names.getLast? = some name ∧ HasExtension ext name) ∧
      found.Nodup ∧ found.Pairwise (List.Lex (List.Lex (· < ·))) ∧
      ∀ other, e.Relisted other → Entry.search id ext other = found) ∧
    ∀ (t : FileTree) (ext : String) (p : Path) (place : List String)
      (entries : List (String × Entry)), t.root.WellNamed →
      (nameBytes ext).map lowerByte = nameBytes ext → t.locate p = .ok place →
      t.entryOf? place = some (.dir entries) →
      ∃ found : List (List String),
        t.schemaFiles ext p = .ok (found.map p.below) ∧
        (∀ names, names ∈ found ↔
          (∃ content, (Entry.dir entries).find? names = some (.file content)) ∧
            ∃ name, names.getLast? = some name ∧
              HasExtension (nameBytes ext) (nameBytes name)) ∧
        (found.map p.below).Nodup ∧ (found.map p.below).Pairwise Path.Before ∧
        (∀ names content, (Entry.dir entries).find? names = some (.file content) →
          t.read (p.below names) = .ok content) ∧
        ∀ other, t.Relisted other → other.schemaFiles ext p = .ok (found.map p.below) := by
  constructor
  · intro ext e hext he
    have hid : Function.Injective (id : List UInt8 → List UInt8) := Function.injective_id
    refine ⟨Entry.mem_search_iff he hext, Entry.nodup_search he,
        Entry.sorted_search hid he, ?_⟩
    intro other hother
    exact Entry.search_congr hid he (hother.distinct he) hext (hother.look he)
  · intro t ext p place entries hroot hext hlocate hentry
    have hdir : (Entry.dir entries).Distinct := hroot.distinct.of_find? hentry
    have hnames : ∀ names ∈ Entry.search nameBytes (nameBytes ext) (.dir entries),
        Path.AreEntryNames names :=
      fun names => areEntryNames_of_mem_search hroot hext hentry
    have hnodup : (Entry.search nameBytes (nameBytes ext) (.dir entries)).Nodup :=
      Entry.nodup_search hdir
    refine ⟨_, schemaFiles_of_dir hlocate hentry ext, Entry.mem_search_iff hdir hext,
        ?_, ?_, ?_, ?_⟩
    · apply hnodup.map_on
      intro m hm n hn hsame
      have hparts := congrArg Path.parts hsame
      rw [p.parts_below (hnames m hm), p.parts_below (hnames n hn)] at hparts
      exact List.append_cancel_left hparts
    · rw [List.pairwise_map]
      apply (Entry.sorted_search nameBytes_injective hdir).imp_of_mem
      intro m n hm hn hbefore
      exact p.before_below (hnames m hm) (hnames n hn) hbefore
    · intro names content hfind
      exact read_below hlocate hentry hfind (areEntryNames_of_find? hroot hentry hfind)
    · intro other hother
      rw [hother.schemaFiles hroot hext hlocate hentry, schemaFiles_of_dir hlocate hentry]

/-- A tree in whose path order `a/z` comes before `a-b`, although a slash is greater than
    a hyphen. -/
def shelf : FileTree where
  root := .dir [("in", .dir
    [("a", .dir [("z.YIS", .file ⟨#[1]⟩)]),
     ("a-b.yis", .file ⟨#[2]⟩),
     ("a.yis.txt", .file ⟨#[3]⟩),
     ("b.yis", .dir [(".yis", .file ⟨#[4]⟩), ("c.Yis", .file ⟨#[5]⟩)])])]
  here := []

def shelfBackwards : FileTree where
  root := .dir [("in", .dir
    [("b.yis", .dir [("c.Yis", .file ⟨#[5]⟩), (".yis", .file ⟨#[4]⟩)]),
     ("a.yis.txt", .file ⟨#[3]⟩),
     ("a-b.yis", .file ⟨#[2]⟩),
     ("a", .dir [("z.YIS", .file ⟨#[1]⟩)])])]
  here := []

def shelfFiles : List Path := [⟨"in/a/z.YIS"⟩, ⟨"in/a-b.yis"⟩, ⟨"in/b.yis/c.Yis"⟩]

theorem wellNamed_shelf : shelf.root.WellNamed := by
  have hname : ∀ name ∈ ["in", "a", "z.YIS", "a-b.yis", "a.yis.txt", "b.yis", ".yis",
        "c.Yis"], Path.IsEntryName name := by
    simp only [List.forall_mem_cons]
    refine ⟨⟨?_, rfl⟩, ⟨?_, rfl⟩, ⟨?_, rfl⟩, ⟨?_, rfl⟩, ⟨?_, rfl⟩, ⟨?_, rfl⟩, ⟨?_, rfl⟩,
        ⟨?_, rfl⟩, by simp⟩ <;> decide
  simp only [List.forall_mem_cons] at hname
  refine .dir (by decide) (by simp [hname]) ?_
  simp only [List.forall_mem_singleton]
  refine .dir (by decide) (by simp [hname]) ?_
  simp only [List.forall_mem_cons]
  refine ⟨.dir (by decide) (by simp [hname]) ?_, .file _, .file _,
      .dir (by decide) (by simp [hname]) ?_, by simp⟩
  · simp [Entry.WellNamed.file]
  · simp [Entry.WellNamed.file]

theorem relisted_shelf : shelf.Relisted shelfBackwards where
  here := rfl
  root := by
    refine .dir (by decide) ?_
    simp only [List.mem_singleton, Prod.mk.injEq]
    rintro name e other ⟨rfl, rfl⟩ ⟨-, rfl⟩
    refine .dir (by decide) ?_
    simp only [List.mem_cons, List.not_mem_nil, or_false, Prod.mk.injEq]
    rintro name e other (⟨rfl, rfl⟩ | ⟨rfl, rfl⟩ | ⟨rfl, rfl⟩ | ⟨rfl, rfl⟩) hother <;>
      simp at hother <;> subst hother
    · refine .dir (by decide) ?_
      simp only [List.mem_singleton, Prod.mk.injEq]
      rintro name e other ⟨rfl, rfl⟩ ⟨-, rfl⟩
      exact .file _
    · exact .file _
    · exact .file _
    · refine .dir (by decide) ?_
      simp only [List.mem_cons, List.not_mem_nil, or_false, Prod.mk.injEq]
      rintro name e other (⟨rfl, rfl⟩ | ⟨rfl, rfl⟩) hother <;>
        simp at hother <;> subst hother
      · exact .file _
      · exact .file _

theorem locate_shelf : shelf.locate ⟨"in"⟩ = .ok ["in"] := by rfl

theorem schemaFiles_shelf : shelf.schemaFiles "yis" ⟨"in"⟩ = .ok shelfFiles := by
  rw [schemaFiles_of_dir locate_shelf rfl, Entry.search_eq_matching nameBytes_injective,
    Entry.matching, List.mergeSort_of_pairwise]
  · rfl
  · decide

/-- A directory whose names are not the bytes of any text. -/
def stray : Entry (List UInt8) :=
  .dir [([0xfe, 46, 121, 105, 115], .file ⟨#[1]⟩), ([0xff, 46, 89, 73, 83], .file ⟨#[2]⟩)]

def strayBackwards : Entry (List UInt8) :=
  .dir [([0xff, 46, 89, 73, 83], .file ⟨#[2]⟩), ([0xfe, 46, 121, 105, 115], .file ⟨#[1]⟩)]

theorem distinct_stray : stray.Distinct := by
  refine .dir (by decide) ?_
  simp [Entry.Distinct.file]

theorem relisted_stray : stray.Relisted strayBackwards := by
  refine .dir (by decide) ?_
  simp only [List.mem_cons, List.not_mem_nil, or_false, Prod.mk.injEq]
  rintro name e other (⟨rfl, rfl⟩ | ⟨rfl, rfl⟩) hother <;> simp at hother <;> subst hother
  · exact .file _
  · exact .file _

theorem search_stray : Entry.search id (nameBytes "yis") stray =
    [[[0xfe, 46, 121, 105, 115]], [[0xff, 46, 89, 73, 83]]] := by
  rw [Entry.search_eq_matching Function.injective_id, Entry.matching,
      List.mergeSort_of_pairwise]
  · rfl
  · decide

/-- The files are found in the order of their paths, and names that are no text are found
    as well. -/
theorem shelf_searched :
    Entry.search id (nameBytes "yis") strayBackwards =
        [[[0xfe, 46, 121, 105, 115]], [[0xff, 46, 89, 73, 83]]] ∧
      shelf.root.WellNamed ∧ shelf.Relisted shelfBackwards ∧
      shelf.schemaFiles "yis" ⟨"in"⟩ = .ok shelfFiles ∧
      shelfBackwards.schemaFiles "yis" ⟨"in"⟩ = .ok shelfFiles ∧
      shelfFiles.Pairwise Path.Before ∧
      shelf.read ⟨"in/a/z.YIS"⟩ = .ok ⟨#[1]⟩ := by
  obtain ⟨hbytes, hpaths⟩ := schemaFiles_exact
  obtain ⟨_, _, _, hstray⟩ := hbytes (nameBytes "yis") stray (by decide) distinct_stray
  obtain ⟨found, hfound, _, _, hsorted, hread, hrelisted⟩ :=
    hpaths shelf "yis" ⟨"in"⟩ ["in"] _ wellNamed_shelf (by decide) locate_shelf rfl
  have hfiles : found.map (Path.below ⟨"in"⟩) = shelfFiles :=
    Except.ok.inj (hfound.symm.trans schemaFiles_shelf)
  rw [hfiles] at hsorted hrelisted
  exact ⟨(hstray _ relisted_stray).trans search_stray, wellNamed_shelf, relisted_shelf,
    schemaFiles_shelf, hrelisted _ relisted_shelf, hsorted, hread ["a", "z.YIS"] ⟨#[1]⟩ rfl⟩

end FileTree

end WireSchema
