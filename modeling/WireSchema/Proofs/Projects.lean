import Mathlib.Data.List.Nodup
import WireSchema.Proofs.Lists
import WireSchema.Proofs.Paths
import WireSchema.Proofs.Registration
import WireSchema.Proofs.Resolution

/-!
# Compiling several schemas

The files of a project are compiled one after another, and none has a part in what becomes
of the others: the outcome of each is the one it has alone.  Together they only have to
bear different names, so that every artifact has a path of its own.
-/

namespace WireSchema

namespace Project

variable {options : Options} {files : List PackageFile} {f : PackageFile}
  {artifacts : List PackageFile}

/-! ### Names -/

/-- For every file whose name a file before it has, an error with the last of these. -/
def clashes (files : List PackageFile) : List Error :=
  files.zipIdx.filterMap fun entry =>
    ((files.take entry.2).reverse.find? fun earlier => earlier.name == entry.1.name).map
      fun earlier =>
      .file (.samePackage earlier.path.text entry.1.path.text entry.1.name)

theorem lookup_seen (before : List PackageFile) (name : String) :
    (before.map fun f => (f.name, f.path)).lookup name =
      (before.find? fun earlier => earlier.name == name).map PackageFile.path := by
  induction before with
  | nil => rfl
  | cons f before ih =>
    rw [List.map_cons, List.lookup_cons, List.find?_cons]
    by_cases hname : name = f.name
    · simp [hname]
    · rw [beq_false_of_ne hname, beq_false_of_ne (Ne.symm hname)]
      exact ih

/-- The loop over files reports, for each, the last file before it that has its name. -/
theorem nameClashes_append (before rest : List PackageFile) :
    nameClashes (before.reverse.map fun f => (f.name, f.path)) rest =
      (rest.zipIdx before.length).filterMap fun entry =>
        (((before ++ rest).take entry.2).reverse.find? fun earlier => earlier.name ==
            entry.1.name).map fun earlier =>
          .file (.samePackage earlier.path.text entry.1.path.text entry.1.name) := by
  induction rest generalizing before with
  | nil => rfl
  | cons f rest ih =>
    have hnext := ih (before ++ [f])
    simp only [List.reverse_append, List.reverse_cons, List.reverse_nil, List.nil_append,
        List.singleton_append, List.map_cons, List.length_append, List.length_singleton,
        List.append_assoc] at hnext
    rw [List.zipIdx_cons, List.filterMap_cons, nameClashes, hnext, lookup_seen,
        List.take_left]
    cases before.reverse.find? fun earlier => earlier.name == f.name <;> rfl

theorem nameClashes_eq (files : List PackageFile) :
    nameClashes [] files = clashes files := nameClashes_append [] files

/-- There is no clash if no name stands twice, nor among those seen before. -/
theorem nameClashes_eq_nil_iff {seen : List (String × Path)} :
    nameClashes seen files = [] ↔
      (files.map PackageFile.name).Nodup ∧ ∀ name ∈ files.map PackageFile.name, name ∉
        seen.map Prod.fst := by
  induction files generalizing seen with
  | nil => simp [nameClashes]
  | cons f rest ih =>
    unfold nameClashes
    cases hseen : seen.lookup f.name with
    | some first =>
      have hmem : f.name ∈ seen.map Prod.fst := by
        by_contra hnot
        rw [lookup_eq_none_iff_notMem_keys.mpr hnot] at hseen
        cases hseen
      simp only [reduceCtorEq, false_iff]
      rintro ⟨_, hnew⟩
      exact hnew f.name List.mem_cons_self hmem
    | none =>
      have hnew := lookup_eq_none_iff_notMem_keys.mp hseen
      rw [List.map_cons, nodup_cons_and_forall_iff (· ∉ seen.map Prod.fst) hnew]
      simp only [ih, List.map_cons, List.mem_cons, not_or, ne_eq, and_comm]

theorem clashes_eq_nil_iff : clashes files = [] ↔ (files.map PackageFile.name).Nodup := by
  rw [← nameClashes_eq, nameClashes_eq_nil_iff]
  simp

/-! ### Outcomes -/

def alone (options : Options) (f : PackageFile) : Except Failure String :=
  (WireSchema.compile f.name f.path.text f.text options).outcome

def errorsOf (options : Options) (f : PackageFile) : List Error :=
  match alone options f with
  | .error (.errors es) => es
  | _ => []

structure IsArtifactOf (options : Options) (f a : PackageFile) : Prop where
  path : a.path = f.path
  name : a.name = f.name
  text : alone options f = .ok a.text

theorem outcome_compileFile :
    (compileFile options f).outcome = (alone options f).map fun text =>
      { f with text := text } := by
  change (Journal.andThen _ fun _ => Journal.andThen _ _).outcome = _
  unfold alone
  simp only [Journal.andThen, Journal.log, Journal.write]
  cases (WireSchema.compile f.name f.path.text f.text options).outcome <;> rfl

theorem isArtifactOf_iff {a : PackageFile} :
    IsArtifactOf options f a ↔ ∃ text, alone options f = .ok text ∧
      a = { f with text := text } := by
  constructor
  · rintro ⟨hpath, hname, htext⟩
    exact ⟨a.text, htext, by rw [← hpath, ← hname]⟩
  · rintro ⟨text, htext, rfl⟩
    exact ⟨rfl, rfl, htext⟩

theorem compileFiles_of_overflow {rest : List PackageFile}
    (h : alone options f = .error .overflow) :
    (compileFiles options (f :: rest)).outcome = .error .overflow := by
  simp only [compileFiles, outcome_compileFile, h, Except.map]

theorem compileFiles_of_ok {rest : List PackageFile} {text : String}
    (h : alone options f = .ok text) :
    (compileFiles options (f :: rest)).outcome =
      merge (.ok { f with text := text }) (compileFiles options rest).outcome := by
  simp only [compileFiles, outcome_compileFile, h, Except.map]

theorem compileFiles_of_errors {rest : List PackageFile} {es : List Error}
    (h : alone options f = .error (.errors es)) :
    (compileFiles options (f :: rest)).outcome =
      merge (.error (.errors es)) (compileFiles options rest).outcome := by
  simp only [compileFiles, outcome_compileFile, h, Except.map]

/-- Files compile together if each does by itself, to the same artifacts. -/
theorem compileFiles_eq_ok_iff :
    (compileFiles options files).outcome = .ok artifacts ↔
      List.Forall₂ (IsArtifactOf options) files artifacts := by
  induction files generalizing artifacts with
  | nil =>
    rw [List.forall₂_nil_left_iff]
    exact ⟨fun h => (Except.ok.inj h).symm, fun h => congrArg Except.ok h.symm⟩
  | cons f rest ih =>
    simp only [List.forall₂_cons_left_iff, isArtifactOf_iff, ← ih]
    cases halone : alone options f with
    | ok text =>
      rw [compileFiles_of_ok halone]
      cases (compileFiles options rest).outcome <;> simp [merge, eq_comm]
    | error failure =>
      cases failure with
      | overflow => simp [compileFiles_of_overflow halone]
      | errors es =>
        rw [compileFiles_of_errors halone]
        rcases (compileFiles options rest).outcome with (_ | _) | _ <;> simp [merge]

/-- Unless there is an overflow, the errors of all files are reported, in the order of the
    files. -/
theorem compileFiles_cases (h : ∀ f ∈ files, alone options f ≠ .error .overflow) :
    ((∃ artifacts, (compileFiles options files).outcome = .ok artifacts) ∧
        files.flatMap (errorsOf options) = []) ∨
      (compileFiles options files).outcome =
        .error (.errors (files.flatMap (errorsOf options))) := by
  induction files with
  | nil => exact .inl ⟨⟨[], rfl⟩, rfl⟩
  | cons f rest ih =>
    have hrest := ih fun g hg => h g (List.mem_cons_of_mem f hg)
    rw [List.flatMap_cons]
    cases halone : alone options f with
    | ok text =>
      have hnone : errorsOf options f = [] := by rw [errorsOf, halone]
      rw [compileFiles_of_ok halone, hnone, List.nil_append]
      rcases hrest with ⟨⟨artifacts, hrest⟩, herrors⟩ | hrest
      · exact .inl ⟨⟨_, by rw [hrest, merge]⟩, herrors⟩
      · exact .inr (by rw [hrest, merge])
    | error failure =>
      cases failure with
      | overflow => exact (h f List.mem_cons_self halone).elim
      | errors es =>
        have hown : errorsOf options f = es := by rw [errorsOf, halone]
        right
        rw [compileFiles_of_errors halone, hown]
        rcases hrest with ⟨⟨artifacts, hrest⟩, herrors⟩ | hrest
        · rw [hrest, herrors, merge, List.append_nil]
        · rw [hrest, merge]

theorem compile_of_nodup (h : (files.map PackageFile.name).Nodup) :
    compile options files = compileFiles options files := by
  rw [compile, nameClashes_eq, clashes_eq_nil_iff.mpr h]
  rfl

theorem compile_of_clash (h : ¬ (files.map PackageFile.name).Nodup) :
    compile options files = .fail (.errors (clashes files)) := by
  have hclash : (clashes files).isEmpty = false := by simpa using mt clashes_eq_nil_iff.mp h
  rw [compile, nameClashes_eq]
  simp [hclash]

theorem compile_eq_ok_iff :
    (compile options files).outcome = .ok artifacts ↔
      (files.map PackageFile.name).Nodup ∧
        List.Forall₂ (IsArtifactOf options) files artifacts := by
  by_cases hnodup : (files.map PackageFile.name).Nodup
  · rw [compile_of_nodup hnodup, compileFiles_eq_ok_iff]
    simp [hnodup]
  · rw [compile_of_clash hnodup]
    simp [hnodup, Journal.fail]

/-! ### Paths -/

theorem map_name_of_forall₂ (h : List.Forall₂ (IsArtifactOf options) files artifacts) :
    artifacts.map PackageFile.name = files.map PackageFile.name := by
  induction h with
  | nil => rfl
  | cons hartifact _ ih => rw [List.map_cons, List.map_cons, hartifact.name, ih]

theorem outputPath_several (t : FileTree) (output : Path) (name : String)
    (target : Target) :
    outputPath t output name target true = output.join ⟨artifactName name target⟩ := rfl

end Project

/-- A path names the entry `file` of the directory that another path names. -/
structure Path.DirectlyIn (p dir : Path) (file : String) : Prop where
  parts : p.parts = dir.dirParts ++ [file]
  absolute : p.isAbsolute = dir.isAbsolute
  fileName : p.fileName? = some file

theorem Path.IsEntryName.directlyIn {file : String} (h : Path.IsEntryName file)
    (dir : Path) : (dir.join ⟨file⟩).DirectlyIn dir file where
  parts := dir.parts_join h.slash_notMem
  absolute := dir.isAbsolute_join h.slash_notMem
  fileName := fileName?_of_parts (dir.parts_join h.slash_notMem) h.isName

namespace Project

/-- **Schemas that are compiled together do not interfere.**  Take files that are named by
    their stems and do not overflow the emitter.  They compile together exactly if their
    names differ and each compiles alone, and then to the artifacts they have alone, in
    their order.  If names clash, there is an error for every file whose name occurred
    before, and nothing is compiled; else there are the errors that the files have alone,
    in their order.  Several artifacts go to different files directly inside the output
    directory. -/
theorem compile_together (options : Options) (files : List PackageFile)
    (hstems : ∀ f ∈ files, packageName f.path = .ok f.name)
    (hcalm : ∀ f ∈ files, alone options f ≠ .error .overflow) :
    (∀ artifacts, (compile options files).outcome = .ok artifacts ↔
        (files.map PackageFile.name).Nodup ∧
          List.Forall₂ (IsArtifactOf options) files artifacts) ∧
      (¬ (files.map PackageFile.name).Nodup →
          compile options files = .fail (.errors (clashes files))) ∧
      ((files.map PackageFile.name).Nodup →
          (∃ f ∈ files, ∀ text, alone options f ≠ .ok text) →
        (compile options files).outcome =
          .error (.errors (files.flatMap (errorsOf options)))) ∧
      ∀ artifacts, (compile options files).outcome = .ok artifacts → 1 < artifacts.length →
        ∀ (t : FileTree) (output : Path) (target : Target),
          (artifacts.map fun a =>
              outputPath t output a.name target (decide (1 < artifacts.length))).Nodup ∧
            ∀ a ∈ artifacts,
              (outputPath t output a.name target
                (decide (1 < artifacts.length))).DirectlyIn output
                  (artifactName a.name target) := by
  refine ⟨fun artifacts => compile_eq_ok_iff, compile_of_clash, ?_, ?_⟩
  · rintro hnodup ⟨f, hf, hfails⟩
    rw [compile_of_nodup hnodup]
    rcases compileFiles_cases hcalm with ⟨⟨artifacts, hok⟩, _⟩ | herrors
    · obtain ⟨a, _, hartifact⟩ := exists_of_forall₂_left (compileFiles_eq_ok_iff.mp hok) hf
      exact (hfails a.text hartifact.text).elim
    · exact herrors
  · intro artifacts hok hseveral t output target
    obtain ⟨hnodup, hartifacts⟩ := compile_eq_ok_iff.mp hok
    have hentry : ∀ a ∈ artifacts, Path.IsEntryName (artifactName a.name target) := by
      intro a ha
      obtain ⟨f, hf, hartifact⟩ := exists_of_forall₂_left hartifacts.flip ha
      rw [hartifact.name]
      exact isEntryName_artifactName (hstems f hf) target
    simp only [hseveral, decide_true, outputPath_several]
    refine ⟨?_, fun a ha => (hentry a ha).directlyIn output⟩
    rw [← map_name_of_forall₂ hartifacts] at hnodup
    refine List.Nodup.map_on ?_ hnodup.of_map
    intro a ha b hb hpath
    have hparts := congrArg Path.parts hpath
    rw [Path.parts_join output (hentry a ha).slash_notMem,
        Path.parts_join output (hentry b hb).slash_notMem] at hparts
    have hfile := List.singleton_inj.mp (List.append_cancel_left hparts)
    exact List.inj_on_of_nodup_map hnodup ha hb (artifactName_inj.mp hfile)

/-- Two schemas of which the second is named by a point. -/
def pointedFiles : List PackageFile :=
  [⟨⟨"in/bus.yis"⟩, "bus", "localparams: [[A, 1, One]]"⟩,
      ⟨⟨"in/sub/..yis"⟩, ".", "localparams: [[B, 2, Two]]"⟩]

/-- Both are compiled, and their artifacts are `bus.json` and `..json`. -/
theorem pointedFiles_compile :
    ∃ artifacts, (compile { target := .json } pointedFiles).outcome = .ok artifacts ∧
      (artifacts.map fun a => outputPath (.empty []) ⟨"out"⟩ a.name .json true).Nodup ∧
      artifacts.map (fun a => (outputPath (.empty []) ⟨"out"⟩ a.name .json true).text) =
        ["out/bus.json", "out/..json"] := by
  have hrun : (compile { target := .json } pointedFiles).outcome.toOption.map
      (List.map PackageFile.name) = some ["bus", "."] := by decide +kernel
  obtain ⟨artifacts, hartifacts, hnames⟩ := Option.map_eq_some_iff.mp hrun
  have hok := except_toOption_eq_some_iff.mp hartifacts
  have hlength : 1 < artifacts.length := by
    rw [← List.length_map PackageFile.name, hnames]
    decide
  obtain ⟨_, _, _, hpaths⟩ := compile_together { target := .json } pointedFiles
    (by decide) (by decide +kernel)
  have hnodup := (hpaths artifacts hok hlength (.empty []) ⟨"out"⟩ .json).1
  rw [decide_eq_true hlength] at hnodup
  refine ⟨artifacts, hok, hnodup, ?_⟩
  have hmap : artifacts.map (fun a =>
        (outputPath (.empty []) ⟨"out"⟩ a.name .json true).text) =
      (artifacts.map PackageFile.name).map fun name =>
      (outputPath (.empty []) ⟨"out"⟩ name .json true).text := by
    rw [List.map_map]
    rfl
  rw [hmap, hnames]
  decide

end Project

end WireSchema
