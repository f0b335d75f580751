import WireSchema.CommandLine.Command
import WireSchema.Proofs.Discovery
import WireSchema.Proofs.FileTrees
import WireSchema.Proofs.Projects

/-!
# What a failed run leaves behind

A run changes files only when it writes its artifacts, and it writes them one after
another.  A write fails only if the output directory cannot be entered, which keeps all
artifacts from being written, or if a directory stands in the artifact's place.  So a run
that fails has written nothing, unless there is no such directory for the first artifact
and there is one for a later artifact (`Obstructed`).
-/

namespace WireSchema

/-! ### The output directory -/

/-- A name that is joined to the path names an entry of the directory at the place. -/
structure FileTree.OpensAt (t : FileTree) (output : Path) (place : List String) : Prop where
  walk : t.walk (t.start output) output.dirParts = .ok place
  dir : t.look place = .dir

namespace FileTree

variable {t after : FileTree} {output : Path} {place : List String} {file : String}
  {bytes : ByteArray}

theorem start_join (t : FileTree) (output : Path) (h : Path.IsEntryName file) :
    t.start (output.join ⟨file⟩) = t.start output := by
  rw [start, start, output.isAbsolute_join h.slash_notMem]

theorem namesEntry_join_iff (h : Path.IsEntryName file) :
    t.NamesEntry (output.join ⟨file⟩) place file ↔ t.OpensAt output place := by
  have hparts := output.parts_join h.slash_notMem
  constructor
  · rintro ⟨⟨dirs, hdirs, hwalk⟩, _, hdir⟩
    rw [hparts] at hdirs
    rw [start_join t output h, ← List.append_cancel_right hdirs] at hwalk
    exact ⟨hwalk, hdir⟩
  · rintro ⟨hwalk, hdir⟩
    rw [← start_join t output h] at hwalk
    exact ⟨⟨output.dirParts, hparts, hwalk⟩, h.isName, hdir⟩

theorem opensAt_of_write (h : Path.IsEntryName file)
    (hwrite : t.write (output.join ⟨file⟩) bytes = .ok after) :
    ∃ place, t.OpensAt output place ∧ t.look (file :: place) ≠ .dir := by
  obtain ⟨place, hentry⟩ := namesEntry_of_write (output.parts_join h.slash_notMem)
    h.isName hwrite
  refine ⟨place, (namesEntry_join_iff h).mp hentry, fun hdir => ?_⟩
  rw [hentry.write, if_pos hdir] at hwrite
  cases hwrite

theorem OpensAt.within (h : t.OpensAt output place) (hwithin : Within t after) :
    after.OpensAt output place where
  walk := by
    rw [hwithin.start]
    exact hwithin.walk h.walk
  dir := hwithin.dir place h.dir

end FileTree

namespace Command

open Project (artifactName)

variable {t : FileTree} {a : Arguments} {output : Path} {target : Target}
  {place : List String} {f first : PackageFile} {artifacts rest : List PackageFile}

def pathInside (output : Path) (target : Target) (f : PackageFile) : Path :=
  output.join ⟨artifactName f.name target⟩

def Named (target : Target) (artifacts : List PackageFile) : Prop :=
  ∀ f ∈ artifacts, Path.IsEntryName (artifactName f.name target)

/-! ### Writing -/

theorem writeAll_of_dir (hopens : t.OpensAt output place)
    (hname : Path.IsEntryName (artifactName f.name target))
    (hdir : t.look (artifactName f.name target :: place) = .dir)
    (rest : List PackageFile) :
    ∃ message, writeAll output target true (f :: rest) t = (.error message, t) := by
  have hwrite := ((FileTree.namesEntry_join_iff hname).mpr hopens).write f.text.toUTF8
  rw [if_pos hdir] at hwrite
  rw [writeAll, Project.outputPath_several, hwrite]
  exact ⟨_, rfl⟩

theorem writeAll_of_ne_dir (hopens : t.OpensAt output place)
    (hname : Path.IsEntryName (artifactName f.name target))
    (hdir : t.look (artifactName f.name target :: place) ≠ .dir)
    (rest : List PackageFile) :
    writeAll output target true (f :: rest) t =
      writeAll output target true rest
        (t.putAt (artifactName f.name target :: place) (.file f.text.toUTF8)) := by
  have hwrite := ((FileTree.namesEntry_join_iff hname).mpr hopens).write f.text.toUTF8
  rw [if_neg hdir] at hwrite
  rw [writeAll, Project.outputPath_several, hwrite]

/-- All artifacts are written, unless a directory stands in the place of one. -/
theorem writeAll_eq_ok_iff (hopens : t.OpensAt output place)
    (hnames : Named target artifacts) :
    (writeAll output target true artifacts t).1 = .ok () ↔
      ∀ f ∈ artifacts, t.look (artifactName f.name target :: place) ≠ .dir := by
  induction artifacts generalizing t with
  | nil => simp [writeAll]
  | cons f rest ih =>
    obtain ⟨hname, hrest⟩ := List.forall_mem_cons.mp hnames
    rw [List.forall_mem_cons]
    by_cases hdir : t.look (artifactName f.name target :: place) = .dir
    · obtain ⟨message, hwrite⟩ := writeAll_of_dir hopens hname hdir rest
      simp [hwrite, hdir]
    · have hwithin := FileTree.within_putAt hopens.dir hdir
        (Entry.isLeaf_file f.text.toUTF8)
      rw [writeAll_of_ne_dir hopens hname hdir, ih (hopens.within hwithin) hrest]
      simp only [ne_eq, FileTree.look_putAt_file_eq_dir_iff hopens.dir hdir]
      exact (and_iff_right hdir).symm

/-- What every write preserves is preserved by all together. -/
theorem writeAll_invariant (inv : FileTree → Prop) (hopens : t.OpensAt output place)
    (hnames : Named target artifacts)
    (hstep : ∀ f ∈ artifacts, ∀ now : FileTree, now.OpensAt output place →
      now.look (artifactName f.name target :: place) ≠ .dir → inv now →
      inv (now.putAt (artifactName f.name target :: place) (.file f.text.toUTF8)))
    (hstart : inv t) : inv (writeAll output target true artifacts t).2 := by
  induction artifacts generalizing t with
  | nil => exact hstart
  | cons f rest ih =>
    obtain ⟨hname, hrest⟩ := List.forall_mem_cons.mp hnames
    obtain ⟨hfirst, hothers⟩ := List.forall_mem_cons.mp hstep
    by_cases hdir : t.look (artifactName f.name target :: place) = .dir
    · obtain ⟨message, hwrite⟩ := writeAll_of_dir hopens hname hdir rest
      rwa [hwrite]
    · have hwithin := FileTree.within_putAt hopens.dir hdir
        (Entry.isLeaf_file f.text.toUTF8)
      rw [writeAll_of_ne_dir hopens hname hdir]
      exact ih (hopens.within hwithin) hrest hothers (hfirst t hopens hdir hstart)

theorem within_writeAll (hopens : t.OpensAt output place)
    (hnames : Named target artifacts) :
    t.Within (writeAll output target true artifacts t).2 := by
  refine writeAll_invariant t.Within hopens hnames ?_ (FileTree.Within.refl t)
  intro f _ now hnow hdir hwithin
  exact hwithin.trans (FileTree.within_putAt hnow.dir hdir
      (Entry.isLeaf_file f.text.toUTF8))

/-- What is no artifact's place stays as it is. -/
theorem look_writeAll (hopens : t.OpensAt output place) (hnames : Named target artifacts)
    {other : List String}
    (hother : ∀ f ∈ artifacts, other ≠ artifactName f.name target :: place) :
    (writeAll output target true artifacts t).2.look other = t.look other := by
  refine writeAll_invariant (fun now => now.look other = t.look other) hopens hnames ?_ rfl
  intro f hf now hnow hdir hsame
  rw [FileTree.look_putAt hnow.dir hdir (Entry.isLeaf_file f.text.toUTF8),
      Function.update_of_ne (hother f hf), hsame]

theorem writeAll_snd_of_error {fault : OsFault} {several : Bool}
    (h : t.write (Project.outputPath t output f.name target several) f.text.toUTF8 =
      .error fault) : (writeAll output target several (f :: rest) t).2 = t := by
  rw [writeAll, h]

/-! ### Delivery -/

/-- A directory stands where an artifact is to go inside the output directory. -/
def Blocked (t : FileTree) (output : Path) (target : Target) (f : PackageFile) : Prop :=
  (t.createAll output).2.isDir (pathInside output target f) = true

/-- The first artifact can be written, and a later one cannot. -/
structure Obstructed (t : FileTree) (output : Path) (target : Target)
    (first : PackageFile) (rest : List PackageFile) : Prop where
  made : (t.createAll output).1 = .ok ()
  free : ¬ Blocked t output target first
  blocked : ∃ f ∈ rest, Blocked t output target f

theorem blocked_iff (hopens : (t.createAll output).2.OpensAt output place)
    (hname : Path.IsEntryName (artifactName f.name target)) :
    Blocked t output target f ↔ (t.createAll output).2.look (artifactName f.name target ::
        place) = .dir :=
  ((FileTree.namesEntry_join_iff hname).mpr hopens).isDir_iff

theorem deliver_one (t : FileTree) (output : Path) (target : Target) (f : PackageFile) :
    deliver t output target [f] = writeAll output target false [f] t := rfl

theorem deliver_several {second : PackageFile} :
    (deliver t output target (first :: second :: rest)).2 = (t.createAll output).2 ∧
        (deliver t output target (first :: second :: rest)).1 ≠ .ok () ∧
          (t.createAll output).1 ≠ .ok () ∨
      deliver t output target (first :: second :: rest) =
          writeAll output target true (first :: second :: rest) (t.createAll output).2 ∧
        (t.createAll output).1 = .ok () := by
  have hseveral : decide (1 < (first :: second :: rest).length) = true := by simp
  unfold deliver
  rw [hseveral]
  rcases hmade : t.createAll output with ⟨fault | ⟨⟩, after⟩
  · left
    simp [prepare, hmade]
  · right
    simp [prepare, hmade]

/-- A delivery that fails writes nothing, unless it can write the first artifact. -/
theorem sameFiles_deliver (hnames : Named target artifacts)
    (hfails : (deliver t output target artifacts).1 ≠ .ok ())
    (hclear : ∀ first rest, artifacts = first :: rest →
      ¬ Obstructed t output target first rest) :
    t.SameFiles (deliver t output target artifacts).2 := by
  rcases artifacts with _ | ⟨first, _ | ⟨second, rest⟩⟩
  · exact FileTree.SameFiles.refl t
  · rw [deliver_one] at hfails ⊢
    cases hwrite : t.write (Project.outputPath t output first.name target false)
      first.text.toUTF8 with
    | error fault =>
      rw [writeAll_snd_of_error hwrite]
      exact FileTree.SameFiles.refl t
    | ok after =>
      rw [writeAll, hwrite] at hfails
      exact (hfails rfl).elim
  · rcases deliver_several with ⟨htree, _⟩ | ⟨hdeliver, hmade⟩
    · rw [htree]
      exact FileTree.sameFiles_createAll t output
    · rw [hdeliver] at hfails ⊢
      have hname := hnames first List.mem_cons_self
      have hpath := Project.outputPath_several (t.createAll output).2 output
        first.name target
      cases hwrite : (t.createAll output).2.write
        (output.join ⟨artifactName first.name target⟩) first.text.toUTF8 with
      | error fault =>
        rw [← hpath] at hwrite
        rw [writeAll_snd_of_error hwrite]
        exact FileTree.sameFiles_createAll t output
      | ok after =>
        -- the first artifact is written, so nothing but a directory can stop another one
        obtain ⟨place, hopens, hfirst⟩ := FileTree.opensAt_of_write hname hwrite
        have hfree := mt (blocked_iff hopens hname).mp hfirst
        refine (hfails ((writeAll_eq_ok_iff hopens hnames).mpr ?_)).elim
        rw [List.forall_mem_cons]
        refine ⟨hfirst, fun f hf hdir => ?_⟩
        have hblocked := (blocked_iff hopens
            (hnames f (List.mem_cons_of_mem first hf))).mpr hdir
        exact hclear first (second :: rest) rfl ⟨hmade, hfree, f, hf, hblocked⟩

theorem opensAt_of_blocked (hname : Path.IsEntryName (artifactName f.name target))
    (h : Blocked t output target f) :
    ∃ place, (t.createAll output).2.OpensAt output place := by
  obtain ⟨place, hentry⟩ := FileTree.namesEntry_of_isDir
    (output.parts_join hname.slash_notMem) hname.isName h
  exact ⟨place, (FileTree.namesEntry_join_iff hname).mp hentry⟩

theorem deliver_ne_ok_of_blocked {second : PackageFile}
    (hnames : Named target (first :: second :: rest)) (hf : f ∈ first :: second :: rest)
    (h : Blocked t output target f) :
    (deliver t output target (first :: second :: rest)).1 ≠ .ok () := by
  rcases deliver_several with ⟨_, hdeliver, _⟩ | ⟨hdeliver, _⟩
  · exact hdeliver
  · obtain ⟨place, hopens⟩ := opensAt_of_blocked (hnames f hf) h
    rw [hdeliver, ne_eq, writeAll_eq_ok_iff hopens hnames]
    exact fun hall => hall f hf ((blocked_iff hopens (hnames f hf)).mp h)

/-- A delivery that is obstructed fails, and its first artifact has been written. -/
theorem deliver_of_obstructed (hnames : Named target (first :: rest))
    (hnodup : ((first :: rest).map PackageFile.name).Nodup)
    (h : Obstructed t output target first rest) :
    (deliver t output target (first :: rest)).1 ≠ .ok () ∧
      ∃ place, (t.createAll output).2.OpensAt output place ∧
        (deliver t output target (first :: rest)).2.OpensAt output place ∧
        (deliver t output target (first :: rest)).2.look
          (artifactName first.name target :: place) =
          .file first.text.toUTF8 := by
  obtain ⟨f, hf, hblocked⟩ := h.blocked
  obtain ⟨second, others, rfl⟩ := List.exists_cons_of_ne_nil (List.ne_nil_of_mem hf)
  refine ⟨deliver_ne_ok_of_blocked hnames (List.mem_cons_of_mem first hf) hblocked, ?_⟩
  rcases deliver_several with ⟨_, _, hmade⟩ | ⟨hdeliver, _⟩
  · exact (hmade h.made).elim
  obtain ⟨hname, hrest⟩ := List.forall_mem_cons.mp hnames
  obtain ⟨place, hopens⟩ := opensAt_of_blocked (hrest f hf) hblocked
  have hdir := mt (blocked_iff hopens hname).mpr h.free
  have hleaf : (Entry.file first.text.toUTF8 : Entry).IsLeaf := Entry.isLeaf_file _
  have hafter := hopens.within (FileTree.within_putAt hopens.dir hdir hleaf)
  rw [hdeliver, writeAll_of_ne_dir hopens hname hdir]
  refine ⟨place, hopens, hafter.within (within_writeAll hafter hrest), ?_⟩
  rw [look_writeAll hafter hrest, FileTree.look_putAt hopens.dir hdir hleaf,
      Function.update_self, Entry.spot]
  -- no other artifact has the name of the first
  intro other hother hplace
  have hsame := Project.artifactName_inj.mp (List.cons.inj hplace).1
  rw [List.map_cons, List.nodup_cons] at hnodup
  exact hnodup.1 (hsame ▸ List.mem_map_of_mem hother)

/-! ### Runs -/

theorem collect_eq_ok_iff {α : Type} {results : List (Except Error α)} {found : List α} :
    collect results = .ok found ↔ results = found.map .ok := by
  induction results generalizing found with
  | nil => cases found <;> simp [collect]
  | cons result results ih =>
    rcases result with e | x
    · rcases hrest : collect results with es | more <;> cases found <;>
        simp [collect, hrest]
    · cases found with
      | nil =>
        rcases hrest : collect results with es | more <;>
          simp [collect, hrest, Except.map]
      | cons y found =>
        rw [List.map_cons, List.cons.injEq, ← ih]
        rcases hrest : collect results with es | more <;> simp [collect, hrest, Except.map]

theorem readText_of_read {p : Path} {text : String} (h : t.read p = .ok text.toUTF8) :
    t.readText p = .ok text := by
  have htext : String.fromUTF8? text.toUTF8 = some text := dif_pos text.isValidUTF8
  rw [FileTree.readText, h]
  simp only [htext]

theorem read_eq_ok_iff {p : Path} :
    PackageFile.read t p = .ok f ↔ f.path = p ∧ packageName p = .ok f.name ∧
      t.readText p = .ok f.text := by
  obtain ⟨path, name, text⟩ := f
  unfold PackageFile.read
  rcases packageName p with e | name
  · simp [bind, Except.bind]
  · rcases t.readText p with fault | text
    · simp [bind, Except.bind, Except.mapError]
    · simp [bind, Except.bind, Except.mapError, pure, Except.pure, eq_comm]

theorem packageName_of_readSchemas {p : Path} {files : List PackageFile}
    (h : t.readSchemas p = .ok files) : ∀ f ∈ files, packageName f.path = .ok f.name := by
  unfold FileTree.readSchemas at h
  split at h
  · cases h
  · cases h
  · intro f hf
    have hmem : (.ok f : Except Error PackageFile) ∈ files.map .ok := List.mem_map_of_mem hf
    rw [← collect_eq_ok_iff.mp h] at hmem
    obtain ⟨path, _, hread⟩ := List.mem_map.mp hmem
    obtain ⟨hpath, hname, _⟩ := read_eq_ok_iff.mp hread
    rw [hpath, hname]

def artifacts? (t : FileTree) (a : Arguments) : Option (List PackageFile) :=
  (options a).toOption.bind fun settings =>
    (t.readSchemas a.input).toOption.bind fun files =>
      (Project.compile settings files).outcome.toOption

theorem artifacts?_eq_some_iff :
    artifacts? t a = some artifacts ↔
      ∃ settings files, options a = .ok settings ∧ t.readSchemas a.input = .ok files ∧
        (Project.compile settings files).outcome = .ok artifacts := by
  simp [artifacts?, Option.bind_eq_some_iff, except_toOption_eq_some_iff]

theorem run_of_artifacts?_eq_none (h : artifacts? t a = none) : (run t a).tree = t := by
  unfold run
  cases hoptions : options a with
  | error message => rfl
  | ok settings =>
    cases hread : t.readSchemas a.input with
    | error es => rfl
    | ok files =>
      rcases hcompile : (Project.compile settings files).outcome with (es | _) | artifacts
      · simp only [hcompile]
        rfl
      · simp only [hcompile]
      · rw [artifacts?_eq_some_iff.mpr ⟨settings, files, hoptions, hread, hcompile⟩] at h
        cases h

theorem run_of_artifacts?_eq_some (h : artifacts? t a = some artifacts) :
    (run t a).tree = (deliver t a.output a.target artifacts).2 ∧
      ((deliver t a.output a.target artifacts).1 = .ok () ∧ (run t a).status = 0 ∨
        (deliver t a.output a.target artifacts).1 ≠ .ok () ∧ (run t a).status = 1) := by
  obtain ⟨settings, files, hoptions, hread, hcompile⟩ := artifacts?_eq_some_iff.mp h
  simp only [run, hoptions, hread, hcompile]
  rcases deliver t a.output a.target artifacts with ⟨message | ⟨⟩, after⟩ <;> simp [stop]

theorem named_of_artifacts?_eq_some (h : artifacts? t a = some artifacts)
    (target : Target) :
    Named target artifacts ∧ (artifacts.map PackageFile.name).Nodup := by
  obtain ⟨settings, files, _, hread, hcompile⟩ := artifacts?_eq_some_iff.mp h
  obtain ⟨hnodup, hartifacts⟩ := Project.compile_eq_ok_iff.mp hcompile
  rw [← Project.map_name_of_forall₂ hartifacts] at hnodup
  refine ⟨fun f hf => ?_, hnodup⟩
  obtain ⟨file, hfile, hartifact⟩ := exists_of_forall₂_left hartifacts.flip hf
  rw [hartifact.name]
  exact Project.isEntryName_artifactName (packageName_of_readSchemas hread file hfile)
    target

/-- **A failed run writes nothing, with one exception.**  If a run ends with an error
    status, every file is what it was before and there is no new file, unless the run had
    several artifacts of which the first could be written and a later one could not,
    because a directory stood in its place.  Then the run ends with status 1, and the
    first artifact is there.

    Only faults of the shape of the tree are modelled: a name that leads nowhere, a file
    in the place of a directory, and a directory in the place of a file.  A tree has no
    permissions and no limits, so faults of a disk that is full or protected, or that
    fails half way through a file, are not among the runs that this is about. -/
theorem run_failed (t : FileTree) (a : Arguments) :
    ((run t a).status ≠ 0 →
        (∀ first rest, artifacts? t a = some (first :: rest) →
            ¬ Obstructed t a.output a.target first rest) →
          t.SameFiles (run t a).tree) ∧
      ∀ first rest, artifacts? t a = some (first :: rest) →
        Obstructed t a.output a.target first rest →
        (run t a).status = 1 ∧
          (run t a).tree.read (pathInside a.output a.target first) =
            .ok first.text.toUTF8 := by
  constructor
  · intro hfails hclear
    cases hartifacts : artifacts? t a with
    | none =>
      rw [run_of_artifacts?_eq_none hartifacts]
      exact FileTree.SameFiles.refl t
    | some artifacts =>
      obtain ⟨htree, ⟨_, hstatus⟩ | ⟨hdeliver, _⟩⟩ := run_of_artifacts?_eq_some hartifacts
      · exact (hfails hstatus).elim
      · rw [htree]
        refine sameFiles_deliver (named_of_artifacts?_eq_some hartifacts a.target).1
          hdeliver ?_
        rintro first rest rfl
        exact hclear first rest hartifacts
  · intro first rest hartifacts hobstructed
    obtain ⟨hnames, hnodup⟩ := named_of_artifacts?_eq_some hartifacts a.target
    obtain ⟨hfails, place, _, hopens, hwritten⟩ :=
      deliver_of_obstructed hnames hnodup hobstructed
    obtain ⟨htree, ⟨hdeliver, _⟩ | ⟨_, hstatus⟩⟩ := run_of_artifacts?_eq_some hartifacts
    · exact (hfails hdeliver).elim
    · rw [htree]
      have hname := hnames first List.mem_cons_self
      exact ⟨hstatus, ((FileTree.namesEntry_join_iff hname).mpr hopens).read hwritten⟩

def pairFiles : List PackageFile :=
  [⟨⟨"in/a.yis"⟩, "a", "localparams: [[A, 1, One]]"⟩,
      ⟨⟨"in/b.yis"⟩, "b", "localparams: [[B, 2, Two]]"⟩]

def pairDir : Entry := .dir (pairFiles.map fun f => (f.name ++ ".yis", .file f.text.toUTF8))

/-- The two schemas, and another directory with a given name inside the output directory. -/
def pairTree (name : String) : FileTree where
  root := .dir [("in", pairDir), ("out", .dir [(name, .dir [])])]
  here := []

def pairArguments : Arguments where
  input := ⟨"in"⟩
  output := ⟨"out"⟩

/-- The two schemas are found and read, whatever else is in the output directory. -/
theorem readSchemas_pairTree (name : String) :
    (pairTree name).readSchemas ⟨"in"⟩ = .ok pairFiles := by
  have hsearch : Entry.search nameBytes (nameBytes schemaExtension) pairDir =
      [["a.yis"], ["b.yis"]] := by
    rw [Entry.search_eq_matching nameBytes_injective, Entry.matching,
        List.mergeSort_of_pairwise]
    · decide
    · decide
  have hfiles : (pairTree name).schemaFiles schemaExtension ⟨"in"⟩ =
      .ok (pairFiles.map PackageFile.path) := by
    change Except.ok ((Entry.search nameBytes (nameBytes schemaExtension) pairDir).map
      (Path.below ⟨"in"⟩)) = _
    rw [hsearch]
    decide
  have hread : ∀ f ∈ pairFiles, PackageFile.read (pairTree name) f.path = .ok f := by
    intro f hf
    simp only [pairFiles, List.mem_cons, List.not_mem_nil, or_false] at hf
    rcases hf with rfl | rfl <;>
      exact read_eq_ok_iff.mpr ⟨rfl, by decide, readText_of_read rfl⟩
  unfold FileTree.readSchemas
  rw [hfiles]
  refine collect_eq_ok_iff.mpr ?_
  rw [List.map_map]
  exact List.map_congr_left hread

theorem artifacts?_pairTree (name : String) :
    ∃ first second, artifacts? (pairTree name) pairArguments = some [first, second] ∧
      first.name = "a" ∧ second.name = "b" := by
  have hrun : (Project.compile {} pairFiles).outcome.toOption.map
      (List.map PackageFile.name) = some ["a", "b"] := by
    decide +kernel
  obtain ⟨artifacts, hartifacts, hnames⟩ := Option.map_eq_some_iff.mp hrun
  obtain ⟨first, others, rfl, hfirst, hothers⟩ := List.map_eq_cons_iff.mp hnames
  obtain ⟨second, none, rfl, hsecond, hnone⟩ := List.map_eq_cons_iff.mp hothers
  rw [List.map_eq_nil_iff.mp hnone] at hartifacts
  refine ⟨first, second, artifacts?_eq_some_iff.mpr ?_, hfirst, hsecond⟩
  exact ⟨{}, pairFiles, rfl, readSchemas_pairTree name,
      except_toOption_eq_some_iff.mp hartifacts⟩

theorem opensAt_pairTree (name : String) :
    ((pairTree name).createAll ⟨"out"⟩).2.OpensAt ⟨"out"⟩ ["out"] := ⟨rfl, rfl⟩

theorem look_pairTree (name file : String) :
    (pairTree name).look [file, "out"] = if file = name then .dir else .nothing := by
  have hentry : (pairTree name).entryOf? ["out"] = some (.dir [(name, .dir [])]) := rfl
  rw [FileTree.look_cons_of_entryOf? hentry, List.lookup_cons]
  by_cases hfile : file = name
  · simp [hfile, Entry.spot]
  · simp [hfile, beq_false_of_ne hfile]

theorem blocked_pairTree_iff (name : String)
    (hname : Path.IsEntryName (artifactName f.name .c)) :
    Blocked (pairTree name) ⟨"out"⟩ .c f ↔ artifactName f.name .c = name := by
  have hmade : (pairTree name).createAll ⟨"out"⟩ = (.ok (), pairTree name) := rfl
  rw [blocked_iff (opensAt_pairTree name) hname, hmade, look_pairTree]
  simp

theorem obstructed_pairTree :
    ∃ first second, artifacts? (pairTree "b.h") pairArguments = some [first, second] ∧
    first.name = "a" ∧ Obstructed (pairTree "b.h") ⟨"out"⟩ .c first [second] := by
  obtain ⟨first, second, hartifacts, hfirst, hsecond⟩ := artifacts?_pairTree "b.h"
  obtain ⟨hnames, _⟩ := named_of_artifacts?_eq_some hartifacts .c
  refine ⟨first, second, hartifacts, hfirst, rfl, ?_, second, List.mem_cons_self, ?_⟩
  · rw [blocked_pairTree_iff "b.h" (hnames first (by simp)), hfirst]
    decide
  · rw [blocked_pairTree_iff "b.h" (hnames second (by simp)), hsecond]
    decide

/-- If a directory is in the place of `out/a.h`, the run fails and changes no file.  If
    one is in the place of `out/b.h`, the run fails and leaves `out/a.h`. -/
theorem pairTree_run_failed :
    ((run (pairTree "a.h") pairArguments).status ≠ 0 ∧
        (pairTree "a.h").SameFiles (run (pairTree "a.h") pairArguments).tree) ∧
      (run (pairTree "b.h") pairArguments).status = 1 ∧
        ∃ bytes,
          (run (pairTree "b.h") pairArguments).tree.read ⟨"out/a.h"⟩ = .ok bytes := by
  constructor
  · obtain ⟨first, second, hartifacts, hfirst, _⟩ := artifacts?_pairTree "a.h"
    obtain ⟨hnames, _⟩ := named_of_artifacts?_eq_some hartifacts .c
    have hblocked : Blocked (pairTree "a.h") ⟨"out"⟩ .c first := by
      rw [blocked_pairTree_iff "a.h" (hnames first (by simp)), hfirst]
      decide
    have hstatus : (run (pairTree "a.h") pairArguments).status ≠ 0 := by
      obtain ⟨_, ⟨hdeliver, _⟩ | ⟨_, hstatus⟩⟩ := run_of_artifacts?_eq_some hartifacts
      · exact (deliver_ne_ok_of_blocked hnames (by simp) hblocked hdeliver).elim
      · simp [hstatus]
    refine ⟨hstatus, (run_failed (pairTree "a.h") pairArguments).1 hstatus ?_⟩
    intro other rest hother hobstructed
    rw [hartifacts, Option.some.injEq] at hother
    obtain ⟨rfl, _⟩ := List.cons.inj hother
    exact hobstructed.free hblocked
  · obtain ⟨first, second, hartifacts, hfirst, hobstructed⟩ := obstructed_pairTree
    obtain ⟨hstatus, hread⟩ := (run_failed (pairTree "b.h") pairArguments).2
      first [second] hartifacts hobstructed
    have hpath : pathInside ⟨"out"⟩ .c first = ⟨"out/a.h"⟩ := by
      rw [pathInside, hfirst]
      decide
    exact ⟨hstatus, first.text.toUTF8, hpath ▸ hread⟩

/-- A run that fails at the second artifact has made a new file. -/
theorem pairTree_not_sameFiles :
    (run (pairTree "b.h") pairArguments).status ≠ 0 ∧
      ¬ (pairTree "b.h").SameFiles (run (pairTree "b.h") pairArguments).tree := by
  obtain ⟨first, second, hartifacts, hfirst, hobstructed⟩ := obstructed_pairTree
  obtain ⟨hnames, hnodup⟩ := named_of_artifacts?_eq_some hartifacts .c
  obtain ⟨hfails, place, hopens, _, hwritten⟩ :=
    deliver_of_obstructed hnames hnodup hobstructed
  obtain ⟨htree, ⟨hdeliver, _⟩ | ⟨_, hstatus⟩⟩ := run_of_artifacts?_eq_some hartifacts
  · exact (hfails hdeliver).elim
  refine ⟨by simp [hstatus], fun hsame => ?_⟩
  obtain rfl : place = ["out"] :=
    Except.ok.inj (hopens.walk.symm.trans (opensAt_pairTree "b.h").walk)
  have hbytes := hsame [artifactName first.name .c, "out"]
  have hfree : artifactName first.name .c ≠ "b.h" := by
    rw [hfirst]
    decide
  rw [htree, look_pairTree, if_neg hfree] at hbytes
  change (FileTree.look (deliver (pairTree "b.h") ⟨"out"⟩ .c [first, second]).2 _).bytes?
    = _ at hbytes
  rw [hwritten] at hbytes
  cases hbytes

end Command

end WireSchema
