import AnnotationIndex.Link.Tables
import AnnotationIndex.Proofs.Order

/-!
The files that a request names, in any language: files of the project, each once.
-/
namespace AnnotationIndex
open Text

namespace FileSet
variable {s : FileSet} {p : Text}

theorem mem_of_has (h : s.has p = true) : p ∈ s.paths := List.elem_iff.mp h

theorem mem_inDirectory {dir : Text} : p ∈ s.inDirectory dir ↔ p ∈ s.paths ∧ Path.directory p = dir := by
  simp [inDirectory, mem_sortedSet]

theorem nodup_inDirectory (s : FileSet) (dir : Text) : (s.inDirectory dir).Nodup := nodup_sortedSet _

theorem mem_of_find? {candidates : List Text} (h : candidates.find? s.has = some p) : p ∈ s.paths :=
  mem_of_has (by simpa using List.find?_some h)

theorem mem_firstOf {candidates : List Text} (h : p ∈ s.firstOf candidates) : p ∈ s.paths :=
  mem_of_find? (Option.mem_toList.mp h)

end FileSet

namespace ModuleTarget
variable {files : FileSet} {p : Text}

theorem nodup_toList (o : Option Text) : o.toList.Nodup := by cases o <;> simp

section Members

theorem mem_script {specifier source : Text} (h : p ∈ script specifier source files) : p ∈ files.paths := by
  unfold script at h
  split at h
  · simp at h
  · dsimp only at h
    split at h
    · simp at h
    · exact FileSet.mem_firstOf h

theorem mem_python {specifier source : Text} (h : p ∈ python specifier source files) : p ∈ files.paths :=
  FileSet.mem_firstOf h

theorem mem_rustModuleFile {root : Text} {segments : List Text}
    (h : rustModuleFile root segments files = some p) : p ∈ files.paths := FileSet.mem_of_find? h

theorem mem_longestRustPrefix {root : Text} {segments : List Text}
    (h : p ∈ longestRustPrefix root files segments) : p ∈ files.paths := by
  obtain ⟨n, _, hn⟩ := List.exists_of_findSome?_eq_some (Option.mem_toList.mp h)
  exact mem_rustModuleFile hn

/-- What a specifier of Rust names is found through the longest prefix of some module path, if at all. -/
theorem rust_cases (specifier source : Text) (files : FileSet) :
    rust specifier source files = [] ∨
      ∃ segments, rust specifier source files =
        longestRustPrefix (crateRoot source files) files segments := by
  unfold rust
  dsimp only
  split
  · exact .inl rfl
  · split
    · exact .inr ⟨_, rfl⟩
    · split
      · exact .inr ⟨_, rfl⟩
      · split
        · split
          · exact .inl rfl
          · exact .inr ⟨_, rfl⟩
        · split
          · exact .inr ⟨_, rfl⟩
          · exact .inl rfl

theorem mem_rust {specifier source : Text} (h : p ∈ rust specifier source files) : p ∈ files.paths := by
  obtain hn | ⟨segments, hs⟩ := rust_cases specifier source files
  · simp [hn] at h
  · exact mem_longestRustPrefix (hs ▸ h)

theorem mem_javaPackage {name : Text} (h : p ∈ javaPackage name files) : p ∈ files.paths := by
  simp only [javaPackage, List.mem_flatMap, List.mem_filter, FileSet.mem_inDirectory] at h
  obtain ⟨dir, _, ⟨hp, _⟩, _⟩ := h
  exact hp

theorem mem_javaClass {segments : List Text} (h : p ∈ javaClass segments files) : p ∈ files.paths := by
  obtain ⟨n, _, hn⟩ := List.exists_of_findSome?_eq_some (Option.mem_toList.mp h)
  have hm := List.mem_of_find?_eq_some hn
  simp only [List.mem_flatMap, FileSet.mem_inDirectory] at hm
  obtain ⟨dir, _, hp, _⟩ := hm
  exact hp

theorem mem_java {specifier : Text} {wildcard : Bool} (h : p ∈ java specifier wildcard files) :
    p ∈ files.paths := by
  unfold java at h
  cases wildcard with
  | false => exact mem_javaClass h
  | true =>
    simp only [if_true] at h
    split at h
    · exact mem_javaClass h
    · exact mem_javaPackage h

theorem go_cases (specifier : Text) (files : FileSet) :
    go specifier files = [] ∨ ∃ dir, go specifier files = goFiles files dir := by
  unfold go
  dsimp only
  split
  · exact .inr ⟨_, rfl⟩
  · exact .inl rfl

theorem mem_go {specifier : Text} (h : p ∈ go specifier files) : p ∈ files.paths := by
  obtain hn | ⟨dir, hd⟩ := go_cases specifier files
  · simp [hn] at h
  · rw [hd, goFiles, List.mem_filter, FileSet.mem_inDirectory] at h
    exact h.1.1

theorem mem_find {request : ModuleRequest} {source language : Text}
    (h : p ∈ find request source language files) : p ∈ files.paths := by
  unfold find at h
  split at h
  · exact mem_script h
  · split at h
    · exact mem_python h
    · split at h
      · exact mem_rust h
      · split at h
        · exact mem_java h
        · split at h
          · exact mem_go h
          · simp at h

end Members

section Distinct

theorem nodup_script (specifier source : Text) (files : FileSet) : (script specifier source files).Nodup := by
  unfold script
  split
  · exact List.nodup_nil
  · dsimp only
    split
    · exact List.nodup_nil
    · exact nodup_toList _

theorem nodup_rust (specifier source : Text) (files : FileSet) : (rust specifier source files).Nodup := by
  obtain hn | ⟨segments, hs⟩ := rust_cases specifier source files
  · simp [hn]
  · rw [hs]
    exact nodup_toList _

/-- A file lies in one directory only. -/
theorem nodup_javaPackage (name : Text) (files : FileSet) : (javaPackage name files).Nodup := by
  have hd : (files.directories.filter fun dir => endsInSegments dir name).Nodup :=
    (nodup_sortedSet _).filter _
  refine List.pairwise_flatMap.mpr ⟨fun dir _ => (files.nodup_inDirectory dir).filter _, hd.imp ?_⟩
  rintro dir dir' hne p hp q hq rfl
  rw [List.mem_filter, FileSet.mem_inDirectory] at hp hq
  exact hne (hp.1.2.symm.trans hq.1.2)

theorem nodup_java (specifier : Text) (wildcard : Bool) (files : FileSet) :
    (java specifier wildcard files).Nodup := by
  unfold java
  cases wildcard with
  | false => exact nodup_toList _
  | true =>
    simp only [if_true]
    split
    · exact nodup_toList _
    · exact nodup_javaPackage _ files

theorem nodup_go (specifier : Text) (files : FileSet) : (go specifier files).Nodup := by
  obtain hn | ⟨dir, hd⟩ := go_cases specifier files
  · simp [hn]
  · rw [hd]
    exact (files.nodup_inDirectory dir).filter _

theorem nodup_find (request : ModuleRequest) (source language : Text) (files : FileSet) :
    (find request source language files).Nodup := by
  unfold find
  split
  · exact nodup_script _ _ files
  · split
    · exact nodup_toList _
    · split
      · exact nodup_rust _ _ files
      · split
        · exact nodup_java _ _ files
        · split
          · exact nodup_go _ files
          · exact List.nodup_nil

end Distinct

section Congruence
variable {files' : FileSet}

/-- Only Java asks whether every name of a module is meant. -/
theorem find_of_specifier {r r' : ModuleRequest} {source language : Text} (h : r.specifier = r'.specifier)
    (hjava : language = ("java" : Text) → r = r') (files : FileSet) :
    find r source language files = find r' source language files := by
  unfold find
  rw [h]
  by_cases hl : language = ("java" : Text)
  · rw [hjava hl]
  · rw [if_neg (c := (language == ("java" : Text)) = true) (by simpa using hl),
      if_neg (c := (language == ("java" : Text)) = true) (by simpa using hl)]

variable (h : ∀ p, p ∈ files.paths ↔ p ∈ files'.paths)
include h

theorem has_congr : files.has = files'.has := by
  funext p
  rw [Bool.eq_iff_iff, FileSet.has, FileSet.has, List.elem_iff, List.elem_iff, h p]

theorem inDirectory_congr : files.inDirectory = files'.inDirectory := by
  funext dir
  refine sortedSet_congr fun p => ?_
  rw [List.mem_filter, List.mem_filter, h p]

theorem directories_congr : files.directories = files'.directories := by
  refine sortedSet_congr fun dir => ?_
  simp only [List.mem_map, h]

theorem crateRoot_congr (source : Text) : crateRoot source files = crateRoot source files' := by
  have hfrom : ∀ own n dir, crateRootFrom files own n dir = crateRootFrom files' own n dir := by
    intro own n
    induction n with
    | zero => exact fun dir => rfl
    | succ n ih =>
      intro dir
      rw [crateRootFrom, crateRootFrom, isCrateRoot, isCrateRoot, has_congr h, ih]
  exact hfrom _ _ _

theorem rustModuleFile_congr (root : Text) (segments : List Text) :
    rustModuleFile root segments files = rustModuleFile root segments files' := by
  rw [rustModuleFile, rustModuleFile, has_congr h]

theorem longestRustPrefix_congr (root : Text) (segments : List Text) :
    longestRustPrefix root files segments = longestRustPrefix root files' segments := by
  simp only [longestRustPrefix, rustModuleFile_congr h]

theorem javaPackage_congr (name : Text) : javaPackage name files = javaPackage name files' := by
  rw [javaPackage, javaPackage, inDirectory_congr h, directories_congr h]

theorem javaClass_congr (segments : List Text) : javaClass segments files = javaClass segments files' := by
  rw [javaClass, javaClass, inDirectory_congr h, directories_congr h]

theorem go_congr (specifier : Text) : go specifier files = go specifier files' := by
  have hgo : goFiles files = goFiles files' := by
    funext dir
    rw [goFiles, goFiles, inDirectory_congr h]
  simp only [go, directories_congr h, hgo]

/-- What a request names follows from which files there are, in whatever order. -/
theorem find_congr (r : ModuleRequest) (source language : Text) :
    find r source language files = find r source language files' := by
  have hfirst : files.firstOf = files'.firstOf := by
    funext candidates
    rw [FileSet.firstOf, FileSet.firstOf, has_congr h]
  have hrust : rust r.specifier source files = rust r.specifier source files' := by
    simp only [rust, crateRoot_congr h, rustModuleFile_congr h, longestRustPrefix_congr h]
  have hjava : java r.specifier r.wildcard files = java r.specifier r.wildcard files' := by
    rw [java, java, javaPackage_congr h, javaClass_congr h]
  simp only [find, script, python, hfirst, hrust, hjava, go_congr h]

end Congruence
end ModuleTarget

namespace LinkTables
variable {t : LinkTables}

theorem mem_targets {request : ModuleRequest} {source target : Text} (h : target ∈ t.targets request source) :
    target ∈ t.units.map (·.path) ∧ target ≠ source := by
  rw [targets, List.mem_filter] at h
  exact ⟨ModuleTarget.mem_find h.1, by simpa using h.2⟩

theorem nodup_targets (t : LinkTables) (request : ModuleRequest) (source : Text) :
    (t.targets request source).Nodup := (ModuleTarget.nodup_find _ _ _ _).filter _

end LinkTables
end AnnotationIndex
