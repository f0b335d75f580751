import WireSchema.Project
import WireSchema.Proofs.Splitting

/-!
# Paths of artifacts

A package is named after the stem of its file, which is never empty and holds no slash.
So the name of an artifact is a file name, and joined to an output path it names an entry
of that directory and nothing else, whatever the output path looks like (`parts_join`).
-/

namespace WireSchema

namespace Path

/-- The parts of a path that lead to a directory: a slash at its end adds none. -/
def dirParts (p : Path) : List String :=
  if p.parts.getLast? = some "" then p.parts.dropLast else p.parts

/-- A text that can name an entry of a directory: it is a single part, and it neither
    stays nor leads up. -/
structure IsEntryName (file : String) : Prop where
  slash_notMem : '/' ∉ file.toList
  isName : FileTree.isName file = true

/-! ### Joining -/

theorem parts_of_slash_notMem {text : String} (h : '/' ∉ text.toList) :
    parts ⟨text⟩ = [text] := by
  simp [parts, Text.splitText, Text.splitAll_of_notMem h]

theorem parts_append_slash (text rest : String) :
    parts ⟨text ++ "/" ++ rest⟩ = parts ⟨text⟩ ++ parts ⟨rest⟩ := by
  have hchars : (text ++ "/" ++ rest).toList = text.toList ++ '/' :: rest.toList := by simp
  simp only [parts, Text.splitText, hchars, Text.splitAll_append_mark, List.map_append]

/-- A path whose last part is empty is empty itself or ends in a slash. -/
theorem ends_of_getLast?_parts {p : Path} (h : p.parts.getLast? = some "") :
    p.text = "" ∨ p.text.toList.getLast? = some '/' := by
  unfold parts Text.splitText at h
  rcases Text.splitAll_cases '/' p.text.toList with
    ⟨_, hsplit⟩ | ⟨before, after, htext, _, hsplit⟩
  · left
    simpa [hsplit] using h
  · right
    have hafter : after = [] := by simpa [hsplit] using h
    simp [htext, hafter]

theorem isAbsolute_of_slash_notMem {file : String} (h : '/' ∉ file.toList) :
    isAbsolute ⟨file⟩ = false := by
  unfold isAbsolute
  cases hhead : file.toList.head? with
  | none => rfl
  | some c =>
    have hc : c ≠ '/' := by
      rintro rfl
      exact h (List.mem_of_head? hhead)
    simpa using hc

/-- The three ways in which a relative path is joined to a path. -/
theorem join_cases (p : Path) {q : Path} (h : q.isAbsolute = false) :
    (p.text = "" ∧ p.join q = q) ∨
      (∃ above, p.text = above ++ "/" ∧ p.join q = ⟨above ++ "/" ++ q.text⟩) ∨
      (p.text ≠ "" ∧ p.text.toList.getLast? ≠ some '/' ∧
          p.join q = ⟨p.text ++ "/" ++ q.text⟩) := by
  unfold join
  rw [h]
  by_cases hempty : p.text = ""
  · left
    simp [hempty]
  · right
    by_cases hslash : p.text.toList.getLast? = some '/'
    · left
      obtain ⟨above, habove⟩ := List.getLast?_eq_some_iff.mp hslash
      have htext : p.text = String.ofList above ++ "/" := by
        apply String.toList_inj.mp
        simpa using habove
      exact ⟨String.ofList above, htext, by simp [hslash, ← htext]⟩
    · right
      simp [hempty, hslash]

/-- Joining a relative path adds its parts, and a slash at the end of the first path does
    not matter. -/
theorem parts_join_of_relative (p : Path) {q : Path} (h : q.isAbsolute = false) :
    (p.join q).parts = p.dirParts ++ q.parts := by
  have hempty : '/' ∉ "".toList := by simp
  rcases p with ⟨text⟩
  rcases join_cases ⟨text⟩ h with ⟨rfl, hjoin⟩ | ⟨above, rfl, hjoin⟩ | ⟨hne, hslash, hjoin⟩
  · rw [hjoin, dirParts, parts_of_slash_notMem hempty]
    rfl
  · have hparts := parts_append_slash above ""
    rw [String.append_empty, parts_of_slash_notMem hempty] at hparts
    rw [hjoin, parts_append_slash above, dirParts, hparts]
    simp
  · have hlast : ¬ (parts ⟨text⟩).getLast? = some "" :=
      fun hlast => (ends_of_getLast?_parts hlast).elim hne hslash
    rw [hjoin, parts_append_slash text, dirParts, if_neg hlast]

theorem isAbsolute_join_of_relative (p : Path) {q : Path} (h : q.isAbsolute = false) :
    (p.join q).isAbsolute = p.isAbsolute := by
  rcases p with ⟨text⟩
  rcases join_cases ⟨text⟩ h with ⟨rfl, hjoin⟩ | ⟨above, rfl, hjoin⟩ | ⟨hne, _, hjoin⟩
  · rw [hjoin, h]
    rfl
  · rw [hjoin]
    simp [isAbsolute, List.head?_append]
  · obtain ⟨c, cs, hcs⟩ := List.exists_cons_of_ne_nil (mt String.toList_eq_nil_iff.mp hne)
    rw [hjoin]
    simp [isAbsolute, hcs]

theorem parts_join (p : Path) {file : String} (h : '/' ∉ file.toList) :
    (p.join ⟨file⟩).parts = p.dirParts ++ [file] := by
  rw [p.parts_join_of_relative (isAbsolute_of_slash_notMem h), parts_of_slash_notMem h]

theorem isAbsolute_join (p : Path) {file : String} (h : '/' ∉ file.toList) :
    (p.join ⟨file⟩).isAbsolute = p.isAbsolute :=
  p.isAbsolute_join_of_relative (isAbsolute_of_slash_notMem h)

/-! ### File names and stems -/

theorem fileName?_of_parts {p : Path} {above : List String} {file : String}
    (hparts : p.parts = above ++ [file]) (hfile : FileTree.isName file = true) :
    p.fileName? = some file := by
  simp only [FileTree.isName, Bool.not_eq_true', Bool.or_eq_false_iff] at hfile
  simp [fileName?, hparts, hfile.1, hfile.2]

/-- The file name of a path can name an entry. -/
theorem isEntryName_of_fileName? {p : Path} {file : String}
    (h : p.fileName? = some file) : IsEntryName file := by
  unfold fileName? at h
  cases hdrop : p.parts.reverse.dropWhile isIdle with
  | nil => simp [hdrop] at h
  | cons last rest =>
    simp only [hdrop, Option.ite_none_left_eq_some, Option.some.injEq] at h
    obtain ⟨hup, rfl⟩ := h
    have hmem : last ∈ p.parts := by
      apply List.mem_reverse.mp
      apply (List.dropWhile_sublist isIdle).mem
      rw [hdrop]
      exact List.mem_cons_self
    obtain ⟨cs, hcs, rfl⟩ := List.mem_map.mp hmem
    have hidle : isIdle (String.ofList cs) = false := by
      have hhead := List.head?_dropWhile_not isIdle p.parts.reverse
      simpa [hdrop] using hhead
    refine ⟨?_, by simp [FileTree.isName, hidle, hup]⟩
    rw [String.toList_ofList]
    exact Text.notMem_splitAll hcs

theorem IsEntryName.ne_empty {file : String} (h : IsEntryName file) : file ≠ "" := by
  rintro rfl
  exact absurd h.isName (by decide)

/-- The name of a package is not empty and holds no slash. -/
theorem IsEntryName.stem {file : String} (h : IsEntryName file) :
    (splitName file).1 ≠ "" ∧ '/' ∉ (splitName file).1.toList := by
  have hwhole := And.intro h.ne_empty h.slash_notMem
  unfold splitName
  split
  · exact hwhole
  · exact hwhole
  · rename_i stem ext hstem hsplit
    have hfile := Text.append_of_splitLast? hsplit
    refine ⟨by simpa using hstem, ?_⟩
    rw [String.toList_ofList]
    intro hmem
    exact h.slash_notMem (by simp [hfile, hmem])

end Path

/-- A package that is named after a file has a name, and there is no slash in it. -/
theorem name_of_packageName {p : Path} {name : String} (h : packageName p = .ok name) :
    name ≠ "" ∧ '/' ∉ name.toList := by
  unfold packageName Path.stem? at h
  cases hfile : p.fileName? with
  | none => simp [hfile] at h
  | some file =>
    simp only [hfile, Option.map_some, Except.ok.injEq] at h
    rw [← h]
    exact (Path.isEntryName_of_fileName? hfile).stem

namespace Project

def artifactName (name : String) (target : Target) : String :=
  name ++ "." ++ target.extension

theorem artifactName_inj {target : Target} {name other : String} :
    artifactName name target = artifactName other target ↔ name = other := by
  simp [artifactName]

/-- The artifact of a package can be an entry of a directory, even if the package is named
    `.` or `..`. -/
theorem isEntryName_artifactName {p : Path} {name : String} (h : packageName p = .ok name)
    (target : Target) : Path.IsEntryName (artifactName name target) := by
  obtain ⟨hne, hslash⟩ := name_of_packageName h
  have hextension : '/' ∉ target.extension.toList := by
    cases target <;> decide
  refine ⟨by simp [artifactName, hslash, hextension], ?_⟩
  -- the three parts that name no entry are shorter
  have hlong : 2 < (artifactName name target).length := by
    have hname : 0 < name.length := Nat.pos_of_ne_zero (mt String.length_eq_zero_iff.mp hne)
    have hext : 0 < target.extension.length := by
      cases target <;> decide
    simp only [artifactName, String.length_append]
    have hpoint : ".".length = 1 := rfl
    omega
  have hshort : ∀ part : String, part.length ≤ 2 → artifactName name target ≠ part := by
    rintro part hpart rfl
    omega
  simp [FileTree.isName, Path.isIdle, hshort "" (by decide), hshort "." (by decide),
      hshort ".." (by decide)]

end Project

end WireSchema
