import MethodAssembler.Artifact
import MethodAssembler.FileTree
import MethodAssembler.Proofs.Stateful

/-! # Paths and texts in a file tree

A path that a file name was joined to leads to that name in the directory. Writing a text changes what stands at one
location and no directory, so every path leads where it led before. -/

namespace MethodAssembler

/-! ### Joined paths -/

namespace Artifact
variable {directory file : String}

/-- A directory leaves its slash, or none, before the name that is joined to it. -/
theorem toList_joinPath (directory file : String) :
    (joinPath directory file).toList = file.toList ∧ directory = "" ∨
      (∃ rest, directory.toList = rest ++ ['/'] ∧ (joinPath directory file).toList = rest ++ '/' :: file.toList) ∨
      directory ≠ "" ∧ (joinPath directory file).toList = directory.toList ++ '/' :: file.toList := by
  rw [joinPath]
  by_cases hempty : directory = ""
  · left
    subst hempty
    simp
  · by_cases hslash : directory.endsWith "/" = true
    · right; left
      have hsuffix : ['/'] <:+ directory.toList := by
        rw [← String.endsWith_toSlice, String.Slice.endsWith_string_iff] at hslash
        simpa using hslash
      obtain ⟨rest, hrest⟩ := hsuffix
      refine ⟨rest, hrest.symm, ?_⟩
      simp [hslash, ← hrest]
    · right; right
      refine ⟨hempty, ?_⟩
      have hcond : (directory.isEmpty || directory.endsWith "/") = false := by simp [hempty, hslash]
      simp [hcond]

theorem path_eq_ok {name path : String} :
    Artifact.path directory name = .ok path ↔ isPlainName name = true ∧
      joinPath directory (name ++ ".compiled.json") = path := by
  rw [Artifact.path]
  split <;> simp_all

theorem not_mem_of_isPlainName {name : String} (h : isPlainName name = true) : '/' ∉ name.toList := by
  intro hmem
  simp only [isPlainName, Bool.and_eq_true, String.all_bool_eq, List.all_eq_true] at h
  simpa using h.2 '/' hmem

end Artifact

namespace FileTree
variable {t t' : FileTree} {directory file path text : String} {l l' base : Location}

theorem parts_joinPath (hslash : '/' ∉ file.toList) (hne : file ≠ "") :
    parts (Artifact.joinPath directory file) = parts directory ++ [file] := by
  have hfile : file.toList.splitOn '/' = [file.toList] := List.splitOn_eq_singleton hslash
  simp only [parts]
  rcases Artifact.toList_joinPath directory file with ⟨hpath, rfl⟩ | ⟨rest, hrest, hpath⟩ | ⟨-, hpath⟩
  · simp [hpath, hfile, hne]
  · simp [hpath, hrest, List.splitOn_append_cons_self, hfile, hne]
  · simp [hpath, List.splitOn_append_cons_self, hfile, hne]

theorem startOf_joinPath (hslash : '/' ∉ file.toList) :
    startOf (Artifact.joinPath directory file) = startOf directory := by
  have hstarts : (Artifact.joinPath directory file).startsWith "/" = directory.startsWith "/" := by
    rw [Bool.eq_iff_iff, String.startsWith_string_iff, String.startsWith_string_iff]
    rcases Artifact.toList_joinPath directory file with ⟨hpath, rfl⟩ | ⟨rest, hrest, hpath⟩ | ⟨hdirectory, hpath⟩
    · rw [hpath]
      refine iff_of_false (fun hstart => ?_) (by simp)
      exact hslash (hstart.subset (by simp))
    · rw [hpath, hrest]
      cases rest <;> simp
    · rw [hpath]
      cases hchars : directory.toList with
      | nil => exact absurd (String.toList_eq_nil_iff.mp hchars) hdirectory
      | cons c rest => simp
  rw [startOf, startOf, hstarts]

theorem endsWith_joinPath (hslash : '/' ∉ file.toList) (hne : file ≠ "") :
    (Artifact.joinPath directory file).endsWith "/" = false := by
  obtain ⟨front, hfront⟩ : ∃ front, (Artifact.joinPath directory file).toList = front ++ file.toList := by
    rcases Artifact.toList_joinPath directory file with ⟨hpath, -⟩ | ⟨rest, -, hpath⟩ | ⟨-, hpath⟩
    · exact ⟨[], hpath⟩
    · exact ⟨rest ++ ['/'], by simp [hpath]⟩
    · exact ⟨directory.toList ++ ['/'], by simp [hpath]⟩
  rw [← String.endsWith_toSlice, String.Slice.endsWith_string_eq_false_iff]
  rintro ⟨rest, hrest⟩
  rw [String.copy_toSlice, hfront] at hrest
  have hlast := congrArg List.getLast? hrest
  cases hchars : file.toList.getLast? with
  | none => exact hne (String.toList_eq_nil_iff.mp (List.getLast?_eq_none_iff.mp hchars))
  | some c =>
    have hc : c = '/' := by simpa [hchars, eq_comm] using hlast
    exact hslash (hc ▸ List.mem_of_getLast? hchars)

/-- A joined path leads to its file name in the directory. -/
theorem locate_joinPath (hslash : '/' ∉ file.toList) (hne : file ≠ "")
    (h : t.locate (Artifact.joinPath directory file) = .ok l) :
    ∃ base, t.follow (startOf directory) (parts directory) = .ok base ∧ t.step base file = .ok l := by
  rw [locate] at h
  split at h
  · cases h
  · split at h
    · cases h
    · rw [endsWith_joinPath hslash hne, parts_joinPath hslash hne, startOf_joinPath hslash] at h
      simpa [follow, List.foldlM_append, Checked.bind_eq_ok] using h

/-- Any name but "." and ".." leads down. -/
theorem step_eq_push (h : t.step base file = .ok l) (hdot : file ≠ ".") (hdots : file ≠ "..") : l = base.push file := by
  rw [step] at h
  split at h
  · split at h
    · exact (Except.ok.inj h).symm
    · cases h
  · split at h <;> cases h

/-! ### Writing -/

/-- The location of a file that can be written. -/
def place? (t : FileTree) (path : String) : Option Location :=
  match t.locate path with
  | .ok l => if t.isDirectoryAt l || isSealed l then none else some l
  | .error _ => none

theorem write?_eq (t : FileTree) (path text : String) : t.write? path text = (t.place? path).map (t.putText · text) := by
  rw [write?, place?]
  cases t.locate path with
  | error fault => rfl
  | ok l => by_cases hfixed : (t.isDirectoryAt l || isSealed l) = true <;> simp [hfixed]

theorem locate_of_place (h : t.place? path = some l) : t.locate path = .ok l := by
  rw [place?] at h
  split at h
  · rename_i l' hlocate
    split at h
    · cases h
    · rw [hlocate, Option.some.inj h]
  · cases h

/-- Where a path leads depends on the directories alone. -/
theorem follow_of_directories (h : t'.directories = t.directories) (parts : List String) (l : Location) :
    (t'.follow l parts).toOption = (t.follow l parts).toOption := by
  induction parts generalizing l with
  | nil => rfl
  | cons part parts ih =>
    have hat : t'.isDirectoryAt l = t.isDirectoryAt l := by rw [isDirectoryAt, isDirectoryAt, h]
    simp only [follow, List.foldlM_cons, step, hat] at ih ⊢
    split
    · split
      · exact ih l
      · split
        · exact ih l.pop
        · split
          · exact ih (l.push part)
          · rfl
    · split <;> split <;> rfl

theorem locate_of_directories (h : t'.directories = t.directories) (hl : t.locate path = .ok l) :
    t'.locate path = .ok l := by
  rw [locate] at hl ⊢
  split at hl
  · cases hl
  · rename_i hempty
    split at hl
    · cases hl
    · rename_i hlimit
      rw [if_neg hempty, if_neg hlimit]
      have hfollow := follow_of_directories h (parts path ++ if path.endsWith "/" then ["."] else []) (startOf path)
      rw [hl] at hfollow
      revert hfollow
      cases t'.follow (startOf path) (parts path ++ if path.endsWith "/" then ["."] else []) with
      | error fault => exact nofun
      | ok l' => exact fun hsome => congrArg _ (Option.some.inj hsome)

theorem place?_of_directories (h : t'.directories = t.directories) (path : String) : t'.place? path = t.place? path := by
  have hat (l : Location) : t'.isDirectoryAt l = t.isDirectoryAt l := by rw [isDirectoryAt, isDirectoryAt, h]
  rw [place?, place?]
  cases hlocate : t.locate path with
  | ok l => simp only [locate_of_directories h hlocate, hat]
  | error fault =>
    cases hlocate' : t'.locate path with
    | error fault' => rfl
    | ok l =>
      rw [locate_of_directories h.symm hlocate'] at hlocate
      cases hlocate

theorem textAt?_putText (t : FileTree) (l l' : Location) (text : String) :
    (t.putText l text).textAt? l' = if l' = l then some text else t.textAt? l' := by
  rw [textAt?, putText, List.lookup_cons]
  by_cases heq : l' = l
  · simp [heq]
  · rw [if_neg heq, beq_eq_false_iff_ne.mpr heq]
    simp only [textAt?]
    induction t.files with
    | nil => rfl
    | cons file files ih =>
      obtain ⟨at', old⟩ := file
      by_cases hat : at' = l
      · subst hat
        simpa [List.lookup_cons, beq_eq_false_iff_ne.mpr heq] using ih
      · rw [List.filter_cons_of_pos (by simpa using hat), List.lookup_cons, List.lookup_cons, ih]

end FileTree

end MethodAssembler
