import Mathlib.Logic.Function.Basic
import Mathlib.Tactic.SplitIfs
import WireSchema.Files.Tree

/-!
# What stands at the places of a file tree

A tree is read as a function of places (`FileTree.look`).  Every operation that changes a
tree puts a single entry, and that changes the function at a single place (`look_putAt`).
So directories stay directories and nothing disappears, paths that led somewhere still
lead there (`Within.walk`), and the making of directories changes no file (`SameFiles`).
-/

namespace WireSchema

inductive Spot where
  | nothing
  | dir
  | file (bytes : ByteArray)

instance : (s : Spot) → Decidable (s = .nothing)
  | .nothing => isTrue rfl
  | .dir | .file _ => isFalse Spot.noConfusion

instance : (s : Spot) → Decidable (s = .dir)
  | .dir => isTrue rfl
  | .nothing | .file _ => isFalse Spot.noConfusion

def Spot.bytes? : Spot → Option ByteArray
  | .file bytes => some bytes
  | _ => none

/-! ### Entries -/

namespace Entry

variable {ν : Type} [DecidableEq ν] {name : ν} {rest : List ν}
  {entries : List (ν × Entry ν)} {new : Entry ν}

/-- What an entry is, without what it holds. -/
def spot : Entry ν → Spot
  | .file bytes => .file bytes
  | .dir _ => .dir

/-- What the names lead to, outermost first. -/
def look (e : Entry ν) (names : List ν) : Spot := ((e.find? names).map spot).getD .nothing

def IsLeaf (e : Entry ν) : Prop := ∀ name rest, e.look (name :: rest) = .nothing

theorem isLeaf_file (bytes : ByteArray) : (Entry.file bytes : Entry ν).IsLeaf :=
  fun _ _ => rfl

theorem isLeaf_emptyDir : (Entry.dir [] : Entry ν).IsLeaf := fun _ _ => rfl

theorem isLeaf_of_spot_ne_dir {e : Entry ν} (h : e.spot ≠ .dir) : e.IsLeaf := by
  cases e with
  | file bytes => exact isLeaf_file bytes
  | dir entries => exact (h rfl).elim

theorem look_nil (e : Entry ν) : e.look [] = e.spot := by cases e <;> rfl

theorem look_dir_cons :
    (Entry.dir entries).look (name :: rest) =
      ((entries.lookup name).map (look · rest)).getD .nothing := by
  unfold look
  rw [find?]
  cases entries.lookup name <;> rfl

theorem find?_append (e : Entry ν) (names more : List ν) :
    e.find? (names ++ more) = (e.find? names).bind (find? more) := by
  induction names generalizing e with
  | nil => rw [List.nil_append, find?, Option.bind_some]
  | cons name names ih =>
    cases e with
    | file bytes => rfl
    | dir entries =>
      rw [List.cons_append, find?, find?]
      cases entries.lookup name with
      | none => rfl
      | some e => exact ih e

theorem lookup_mapAt (entries : List (ν × Entry ν)) (name : ν)
    (change : Entry ν → Entry ν) (key : ν) :
    (entries.map fun entry => (entry.1, if entry.1 == name then change entry.2
          else entry.2)).lookup key =
      (entries.lookup key).map fun e => if key = name then change e else e := by
  induction entries with
  | nil => rfl
  | cons entry entries ih =>
    rw [List.map_cons, List.lookup_cons, List.lookup_cons]
    by_cases hkey : key = entry.1
    · simp [hkey]
    · simp only [beq_false_of_ne hkey, ih]

theorem lookup_append_new (hnew : entries.lookup name = none) (e : Entry ν) (key : ν) :
    (entries ++ [(name, e)]).lookup key =
      if key = name then some e else entries.lookup key := by
  rw [List.lookup_append, List.lookup_cons]
  by_cases hkey : key = name
  · simp [hkey, hnew]
  · simp [hkey, beq_false_of_ne hkey]

/-- What is below a directory after an entry is put directly into it. -/
theorem lookup_put (new : Entry ν) (name key : ν) (entries : List (ν × Entry ν)) :
    ∃ after, put new [name] (.dir entries) = .dir after ∧
      after.lookup key = if key = name then some new else entries.lookup key := by
  cases hold : entries.lookup name with
  | none =>
    refine ⟨entries ++ [(name, new)], by simp [put, hold], lookup_append_new hold new key⟩
  | some old =>
    refine ⟨_, by rw [put, hold], ?_⟩
    rw [lookup_mapAt]
    by_cases hkey : key = name
    · simp [hkey, hold, put]
    · simp [hkey]

theorem exists_of_look_nil {e : Entry ν} (h : e.look [] = .dir) :
    ∃ entries, e = .dir entries := by
  cases e with
  | file bytes => cases h
  | dir entries => exact ⟨entries, rfl⟩

theorem exists_of_look_cons {e : Entry ν} (h : e.look (name :: rest) ≠ .nothing) :
    ∃ entries child, e = .dir entries ∧ entries.lookup name = some child := by
  cases e with
  | file bytes => exact (h rfl).elim
  | dir entries =>
    cases hchild : entries.lookup name with
    | none => simp [look_dir_cons, hchild] at h
    | some child => exact ⟨entries, child, rfl, hchild⟩

theorem look_put_name (hold : (Entry.dir entries).look [name] ≠ .dir)
    (hnew : new.IsLeaf) :
    (put new [name] (.dir entries)).look =
      Function.update (Entry.dir entries).look [name] new.spot := by
  funext names
  cases names with
  | nil =>
    obtain ⟨after, hput, _⟩ := lookup_put new name name entries
    rw [hput, Function.update_of_ne (by simp), look_nil, look_nil, spot, spot]
  | cons key more =>
    obtain ⟨after, hput, hafter⟩ := lookup_put new name key entries
    rw [hput, look_dir_cons, hafter]
    by_cases hkey : key = name
    · subst hkey
      rw [if_pos rfl, Option.map_some, Option.getD_some]
      cases more with
      | nil => rw [Function.update_self, look_nil]
      | cons next more =>
        -- neither the new entry nor the old one has anything below it
        rw [hnew, Function.update_of_ne (by simp), look_dir_cons]
        cases hchild : entries.lookup key with
        | none => rfl
        | some child =>
          have hleaf : child.IsLeaf :=
            isLeaf_of_spot_ne_dir (by simpa [look_dir_cons, hchild, look_nil] using hold)
          simp [hleaf next more]
    · rw [if_neg hkey, Function.update_of_ne (by simp [hkey]), look_dir_cons]

/-- A leaf that is put where no directory stood changes what stands there, and nothing
    else. -/
theorem look_put {e : Entry ν} {above : List ν} (habove : e.look above = .dir)
    (hold : e.look (above ++ [name]) ≠ .dir) (hnew : new.IsLeaf) :
    (put new (above ++ [name]) e).look = Function.update e.look (above ++ [name])
      new.spot := by
  induction above generalizing e with
  | nil =>
    obtain ⟨entries, rfl⟩ := exists_of_look_nil habove
    exact look_put_name hold hnew
  | cons first above ih =>
    obtain ⟨entries, child, rfl, hchild⟩ :=
      exists_of_look_cons (by rw [habove]; exact Spot.noConfusion)
    rw [List.cons_append] at hold ⊢
    simp only [look_dir_cons, hchild, Option.map_some, Option.getD_some] at habove hold
    rw [put, hchild]
    funext names
    cases names with
    | nil => rw [Function.update_of_ne (by simp), look_nil, look_nil, spot, spot]
    | cons key more =>
      rw [look_dir_cons, lookup_mapAt]
      by_cases hkey : key = first
      · subst hkey
        simp only [hchild, Option.map_some, Option.getD_some, if_true, ih habove hold]
        by_cases hmore : more = above ++ [name]
        · rw [hmore, Function.update_self, Function.update_self]
        · rw [Function.update_of_ne hmore, Function.update_of_ne (by simpa using hmore),
              look_dir_cons, hchild]
          rfl
      · rw [Function.update_of_ne (by simp [hkey]), look_dir_cons]
        simp [hkey]

end Entry

/-! ### Trees -/

namespace FileTree

variable {t after last : FileTree} {place found parts : List String} {name : String}
  {entries : List (String × Entry)} {p : Path} {bytes : ByteArray}

def look (t : FileTree) (place : List String) : Spot := t.root.look place.reverse

theorem look_eq (t : FileTree) (place : List String) :
    t.look place = ((t.entryOf? place).map Entry.spot).getD .nothing := rfl

theorem look_of_entryOf? {e : Entry} (h : t.entryOf? place = some e) :
    t.look place = e.spot := by
  rw [look_eq, h]
  rfl

theorem look_cons_of_entryOf? (h : t.entryOf? place = some (.dir entries)) (name : String) :
    t.look (name :: place) = ((entries.lookup name).map Entry.spot).getD .nothing := by
  have hfind : t.root.find? (place.reverse ++ [name]) =
      (Entry.dir entries).find? [name] := by
    rw [Entry.find?_append]
    unfold entryOf? at h
    rw [h, Option.bind_some]
  rw [look_eq, entryOf?, List.reverse_cons, hfind, Entry.find?]
  cases entries.lookup name <;> rfl

theorem exists_of_look_eq_dir (h : t.look place = .dir) :
    ∃ entries, t.entryOf? place = some (.dir entries) := by
  rw [look_eq] at h
  rcases hentry : t.entryOf? place with _ | (bytes | entries)
  · simp [hentry] at h
  · simp [hentry, Entry.spot] at h
  · exact ⟨entries, rfl⟩

/-- Putting a leaf changes the tree at a single place. -/
theorem look_putAt (hplace : t.look place = .dir) (hold : t.look (name :: place) ≠ .dir)
    {new : Entry} (hnew : new.IsLeaf) :
    (t.putAt (name :: place) new).look =
      Function.update t.look (name :: place) new.spot := by
  unfold look at hold hplace
  rw [List.reverse_cons] at hold
  funext other
  unfold look putAt
  rw [List.reverse_cons, Entry.look_put hplace hold hnew]
  by_cases hother : other = name :: place
  · rw [hother, List.reverse_cons, Function.update_self, Function.update_self]
  · have hreverse : other.reverse ≠ place.reverse ++ [name] := by
      rw [← List.reverse_cons]
      exact fun h => hother (List.reverse_inj.mp h)
    rw [Function.update_of_ne hother, Function.update_of_ne hreverse]

/-- A file that is put changes no directory. -/
theorem look_putAt_file_eq_dir_iff (hplace : t.look place = .dir)
    (hold : t.look (name :: place) ≠ .dir) (bytes : ByteArray) (other : List String) :
    (t.putAt (name :: place) (.file bytes)).look other = .dir ↔ t.look other = .dir := by
  rw [look_putAt hplace hold (Entry.isLeaf_file bytes)]
  by_cases hother : other = name :: place
  · simp [hother, hold, Entry.spot]
  · rw [Function.update_of_ne hother]

/-! ### Following paths -/

theorem look_of_walk_cons {part : String} (h : t.walk place (part :: parts) = .ok found) :
    t.look place = .dir := by
  unfold walk at h
  rcases hentry : t.entryOf? place with _ | (bytes | entries)
  · simp [hentry] at h
  · simp [hentry] at h
  · exact look_of_entryOf? hentry

theorem walk_cons_of_dir (h : t.look place = .dir) (part : String) (parts : List String) :
    t.walk place (part :: parts) =
      if Path.isIdle part then t.walk place parts
      else if part == ".." then t.walk place.tail parts
      else if t.look (part :: place) = .nothing then .error .notFound
      else t.walk (part :: place) parts := by
  obtain ⟨entries, hentry⟩ := exists_of_look_eq_dir h
  rw [walk, hentry, look_cons_of_entryOf? hentry]
  rcases hchild : entries.lookup part with _ | (_ | _) <;> simp [hchild, Entry.spot]

/-- A walk can be interrupted: the rest of the way starts from the place reached. -/
theorem walk_append (t : FileTree) (place parts more : List String) :
    t.walk place (parts ++ more) = (t.walk place parts).bind (t.walk · more) := by
  induction parts generalizing place with
  | nil => rfl
  | cons part parts ih =>
    rw [List.cons_append, walk, walk]
    rcases t.entryOf? place with _ | (bytes | entries)
    · rfl
    · rfl
    · simp only [ih]
      split_ifs <;> rfl

/-- Every directory of a tree is one in another tree, and the places of the first are
    places of the second. -/
structure Within (t after : FileTree) : Prop where
  here : after.here = t.here
  dir : ∀ place, t.look place = .dir → after.look place = .dir
  kept : ∀ place, t.look place ≠ .nothing → after.look place ≠ .nothing

namespace Within

theorem refl (t : FileTree) : Within t t := ⟨rfl, fun _ => id, fun _ => id⟩

theorem trans (h : Within t after) (hnext : Within after last) : Within t last where
  here := hnext.here.trans h.here
  dir place := hnext.dir place ∘ h.dir place
  kept place := hnext.kept place ∘ h.kept place

theorem start (h : Within t after) (p : Path) : after.start p = t.start p := by
  rw [FileTree.start, FileTree.start, h.here]

/-- A path that leads to a place still leads there. -/
theorem walk (h : Within t after) (hwalk : t.walk place parts = .ok found) :
    after.walk place parts = .ok found := by
  induction parts generalizing place with
  | nil => exact hwalk
  | cons part parts ih =>
    have hdir := look_of_walk_cons hwalk
    rw [walk_cons_of_dir hdir] at hwalk
    rw [walk_cons_of_dir (h.dir place hdir)]
    split_ifs at hwalk with hidle hup hnone
    · rw [if_pos hidle]
      exact ih hwalk
    · rw [if_neg hidle, if_pos hup]
      exact ih hwalk
    · rw [if_neg hidle, if_neg hup, if_neg (h.kept _ hnone)]
      exact ih hwalk

end Within

/-- Putting a leaf where no directory stood takes nothing away. -/
theorem within_putAt (hplace : t.look place = .dir) (hold : t.look (name :: place) ≠ .dir)
    {new : Entry} (hnew : new.IsLeaf) : Within t (t.putAt (name :: place) new) where
  here := rfl
  dir other hdir := by
    rw [look_putAt hplace hold hnew,
        Function.update_of_ne (by rintro rfl; exact hold hdir), hdir]
  kept other hkept := by
    rw [look_putAt hplace hold hnew]
    by_cases hother : other = name :: place
    · rw [hother, Function.update_self]
      cases new <;> simp [Entry.spot]
    · rwa [Function.update_of_ne hother]

/-! ### Making directories -/

def SameFiles (t after : FileTree) : Prop :=
  ∀ place, (after.look place).bytes? = (t.look place).bytes?

theorem SameFiles.refl (t : FileTree) : t.SameFiles t := fun _ => rfl

theorem SameFiles.trans (h : t.SameFiles after) (hnext : after.SameFiles last) :
    t.SameFiles last :=
  fun place => (hnext place).trans (h place)

theorem directory_eq_ok_iff :
    t.directory place parts = .ok (found, entries) ↔
      t.walk place parts = .ok found ∧ t.entryOf? found = some (.dir entries) := by
  unfold directory
  cases t.walk place parts with
  | error fault => simp
  | ok reached =>
    by_cases hfound : reached = found
    · subst hfound
      rcases hentry : t.entryOf? reached with _ | (bytes | inside) <;> simp [hentry]
    · rcases hentry : t.entryOf? reached with _ | (bytes | inside) <;> simp [hentry, hfound]

/-- Making a directory changes no file. -/
theorem sameFiles_makeDir (h : t.makeDir place parts = .ok after) : t.SameFiles after := by
  cases parts with
  | nil => cases h
  | cons name above =>
    unfold makeDir at h
    rcases hdirectory : t.directory place above.reverse with fault | ⟨found, entries⟩
    · simp [hdirectory] at h
    · simp only [hdirectory] at h
      split_ifs at h with hnew
      rw [← Except.ok.inj h]
      have hentry := (directory_eq_ok_iff.mp hdirectory).2
      have hnone : t.look (name :: found) = .nothing := by
        rw [look_cons_of_entryOf? hentry, Option.isNone_iff_eq_none.mp
            (Bool.and_eq_true_iff.mp hnew).2]
        rfl
      intro other
      rw [look_putAt (look_of_entryOf? hentry) (by simp [hnone]) Entry.isLeaf_emptyDir]
      by_cases hother : other = name :: found
      · rw [hother, Function.update_self, hnone]
        rfl
      · rw [Function.update_of_ne hother]

theorem settle_snd (t : FileTree) (place parts : List String) (fault : OsFault) :
    (t.settle place parts fault).2 = t := by
  unfold settle
  cases t.directory place parts.reverse <;> rfl

theorem sameFiles_ensureDir {prepare : FileTree → Made}
    (hprepare : ∀ t : FileTree, t.SameFiles (prepare t).2) (t : FileTree)
    (place parts : List String) : t.SameFiles (ensureDir place parts prepare t).2 := by
  unfold ensureDir
  split
  · rename_i after hmade
    exact sameFiles_makeDir hmade
  · -- the directories above come first
    have habove := hprepare t
    split
    · rename_i fault after hfails
      rwa [hfails] at habove
    · rename_i after hdone
      rw [hdone] at habove
      split
      · rename_i last hmade
        exact habove.trans (sameFiles_makeDir hmade)
      · rwa [settle_snd]
  · rw [settle_snd]
    exact SameFiles.refl t

theorem sameFiles_ensureDirs (t : FileTree) (place names : List String) :
    t.SameFiles (ensureDirs place names t).2 := by
  induction names generalizing t with
  | nil => exact SameFiles.refl t
  | cons name above ih => exact sameFiles_ensureDir ih t place (name :: above)

/-- Making directories changes no file, even if it fails on the way. -/
theorem sameFiles_createAll (t : FileTree) (p : Path) : t.SameFiles (t.createAll p).2 := by
  unfold createAll
  split
  · exact SameFiles.refl t
  · exact sameFiles_ensureDir (fun t => sameFiles_ensureDirs t _ _) t _ _

/-! ### Files in directories -/

/-- The path names the entry `file` of the directory at a place, whether there is such an
    entry or not. -/
structure NamesEntry (t : FileTree) (p : Path) (place : List String) (file : String) :
    Prop where
  walk_parts : ∃ dirs, p.parts = dirs ++ [file] ∧ t.walk (t.start p) dirs = .ok place
  isName : isName file = true
  dir : t.look place = .dir

variable {dirs : List String} {file : String}

theorem text_isEmpty_of_parts (hparts : p.parts = dirs ++ [file])
    (hname : isName file = true) : p.text.isEmpty = false := by
  by_contra hempty
  rw [Bool.not_eq_false, String.isEmpty_iff] at hempty
  have hpart : p.parts = [""] := by
    rw [Path.parts, hempty]
    rfl
  have hfile : [""] = dirs ++ [file] := hpart ▸ hparts
  have hlast := congrArg List.getLast? hfile
  rw [List.getLast?_concat] at hlast
  rw [← Option.some.inj hlast] at hname
  cases hname

theorem locate_of_parts (hparts : p.parts = dirs ++ [file]) (hname : isName file = true) :
    t.locate p = (t.walk (t.start p) dirs).bind (t.walk · [file]) := by
  rw [locate, text_isEmpty_of_parts hparts hname, hparts, walk_append]
  rfl

theorem walk_name (hname : isName file = true) (hdir : t.look place = .dir) :
    t.walk place [file] = if t.look (file :: place) = .nothing then .error .notFound
      else .ok (file :: place) := by
  simp only [isName, Bool.not_eq_true', Bool.or_eq_false_iff] at hname
  rw [walk_cons_of_dir hdir, hname.1, hname.2]
  rfl

theorem dropWhile_parts (hparts : p.parts = dirs ++ [file]) (hname : isName file = true) :
    p.parts.reverse.dropWhile (· == "") = file :: dirs.reverse := by
  have hfile : (file == "") = false := by
    apply beq_false_of_ne
    rintro rfl
    cases hname
  rw [hparts, List.reverse_concat, List.dropWhile_cons_of_neg (by simp [hfile])]

theorem write_of_fault {fault : OsFault} (hparts : p.parts = dirs ++ [file])
    (hname : isName file = true) (h : t.directory (t.start p) dirs = .error fault)
    (bytes : ByteArray) : t.write p bytes = .error fault := by
  unfold write
  rw [text_isEmpty_of_parts hparts hname, dropWhile_parts hparts hname]
  simp only [List.reverse_reverse, h]
  rfl

/-- Writing fails where a directory stands, and nowhere else. -/
theorem write_of_directory (hparts : p.parts = dirs ++ [file])
    (hname : isName file = true) (h : t.directory (t.start p) dirs = .ok (place, entries))
    (bytes : ByteArray) :
    t.write p bytes =
      if t.look (file :: place) = .dir then .error .isDirectory
      else .ok (t.putAt (file :: place) (.file bytes)) := by
  have hlast : ¬ (p.parts.getLast? == some "") = true := by
    rw [hparts, List.getLast?_concat, beq_iff_eq, Option.some.injEq]
    rintro rfl
    cases hname
  unfold write
  rw [text_isEmpty_of_parts hparts hname, dropWhile_parts hparts hname,
    look_cons_of_entryOf? (directory_eq_ok_iff.mp h).2]
  simp only [List.reverse_reverse, h, hname, hlast]
  rcases hold : entries.lookup file with _ | (_ | _) <;> simp [Entry.spot]

namespace NamesEntry

theorem locate (h : t.NamesEntry p place file) :
    t.locate p =
      if t.look (file :: place) = .nothing then .error .notFound
      else .ok (file :: place) := by
  obtain ⟨dirs, hparts, hwalk⟩ := h.walk_parts
  rw [locate_of_parts hparts h.isName, hwalk, ← walk_name h.isName h.dir]
  rfl

theorem isDir_iff (h : t.NamesEntry p place file) :
    t.isDir p = true ↔ t.look (file :: place) = .dir := by
  rw [isDir, h.locate]
  by_cases hnone : t.look (file :: place) = .nothing
  · simp [hnone]
  · rw [if_neg hnone, look_eq]
    rcases hentry : t.entryOf? (file :: place) with _ | (_ | _) <;>
      simp [hentry, Entry.isDir, Entry.spot]

theorem read (h : t.NamesEntry p place file)
    (hfile : t.look (file :: place) = .file bytes) : t.read p = .ok bytes := by
  rw [FileTree.read, h.locate, hfile]
  rw [look_eq] at hfile
  rcases hentry : t.entryOf? (file :: place) with _ | (_ | _) <;> simp_all [Entry.spot]

/-- Writing to an entry fails only where a directory stands. -/
theorem write (h : t.NamesEntry p place file) (bytes : ByteArray) :
    t.write p bytes =
      if t.look (file :: place) = .dir then .error .isDirectory
      else .ok (t.putAt (file :: place) (.file bytes)) := by
  obtain ⟨dirs, hparts, hwalk⟩ := h.walk_parts
  obtain ⟨entries, hentry⟩ := exists_of_look_eq_dir h.dir
  exact write_of_directory hparts h.isName (directory_eq_ok_iff.mpr ⟨hwalk, hentry⟩) bytes

end NamesEntry

theorem namesEntry_of_isDir (hparts : p.parts = dirs ++ [file])
    (hname : isName file = true) (h : t.isDir p = true) :
    ∃ place, t.NamesEntry p place file := by
  rw [isDir, locate_of_parts hparts hname] at h
  rcases hwalk : t.walk (t.start p) dirs with fault | place
  · simp [hwalk, Except.bind] at h
  · refine ⟨place, ⟨dirs, hparts, hwalk⟩, hname, ?_⟩
    rw [hwalk] at h
    rcases hlast : t.walk place [file] with fault | found
    · simp [Except.bind, hlast] at h
    · exact look_of_walk_cons hlast

/-- A file that can be written is an entry of a directory that is there. -/
theorem namesEntry_of_write (hparts : p.parts = dirs ++ [file]) (hname : isName file = true)
    (h : t.write p bytes = .ok after) : ∃ place, t.NamesEntry p place file := by
  rcases hdirectory : t.directory (t.start p) dirs with fault | ⟨place, entries⟩
  · rw [write_of_fault hparts hname hdirectory] at h
    cases h
  · obtain ⟨hwalk, hentry⟩ := directory_eq_ok_iff.mp hdirectory
    exact ⟨place, ⟨dirs, hparts, hwalk⟩, hname, look_of_entryOf? hentry⟩

end FileTree

end WireSchema
