import AnnotationIndex.Proofs.PathNames

/-!
Module paths of Rust lead back to their files. A file below the root of its crate is named by the directories on the
way and by its own name; asked for from the crate, this path finds the file again, or the other file of the same
module.
-/
namespace AnnotationIndex
open Text

namespace ModuleTarget
open AnnotationIndex.Path

/-- A name that a module can have, as far as paths and specifiers tell names apart: any identifier is one. -/
def IsIdentifier (s : Text) : Prop := s ≠ [] ∧ slash ∉ s ∧ dot ∉ s ∧ unit ':' ∉ s

instance : DecidablePred IsIdentifier :=
  fun s => inferInstanceAs (Decidable (s ≠ [] ∧ slash ∉ s ∧ dot ∉ s ∧ unit ':' ∉ s))

/-- A Rust file by the names in its path. Files may be called `mod`, `lib` and `main`, but no directory is. -/
structure RustFile where
  directories : List Text
  stem : Text
  directories_isIdentifier : ∀ d ∈ directories, IsIdentifier d
  stem_isIdentifier : IsIdentifier stem
  directories_ne : ∀ d ∈ directories, d ≠ "mod" ∧ d ≠ "lib" ∧ d ≠ "main"

def RustFile.path (g : RustFile) : Text := ofNames (g.directories ++ [g.stem ++ ".rs"])

/-- Two files of one module of a crate, the one that is found first. -/
inductive SameModule (root : Text) : Text → Text → Prop
  | directory {names : List Text} (hne : names ≠ []) :
      SameModule root (joinAll (root :: names) ++ ".rs") (joinAll (root :: names ++ [ofString "mod.rs"]))
  | roots : SameModule root (joinAll [root, "lib.rs"]) (joinAll [root, "main.rs"])
  | lib : SameModule root (joinAll [root, "lib.rs"]) (joinAll [root, "mod.rs"])
  | main : SameModule root (joinAll [root, "main.rs"]) (joinAll [root, "mod.rs"])

section Names
variable {s : Text}

theorem IsIdentifier.isName (h : IsIdentifier s) : IsName s :=
  ⟨h.1, h.2.1, fun he => h.2.2.1 (he ▸ by decide), fun he => h.2.2.1 (he ▸ by decide)⟩

theorem isName_rs (h : slash ∉ s) : IsName (s ++ ".rs") := by
  have hslash : slash ∉ ofString ".rs" := by decide
  have hlast : (s ++ ofString ".rs").getLast? = some (unit 's') := by
    rw [List.getLast?_append_of_ne_nil _ (by decide)]
    decide
  refine ⟨List.append_ne_nil_of_right_ne_nil _ (by decide), by simp [h, hslash], fun he => ?_, fun he => ?_⟩ <;>
    exact absurd (he ▸ hlast) (by decide)

end Names

/-- The module that a file below a directory is. -/
theorem rustModulePath_ofNames {root above : List Text} {stem : Text} (hroot : ∀ s ∈ root, IsName s)
    (habove : ∀ s ∈ above, IsName s) (hstem : slash ∉ stem) :
    rustModulePath (ofNames (root ++ (above ++ [stem ++ ".rs"]))) (ofNames root) =
      if stem = "mod" then above else if above = [] ∧ (stem = "lib" ∨ stem = "main") then [] else above ++ [stem] := by
  have hrelative : relative (ofNames root) (ofNames (root ++ (above ++ [stem ++ ".rs"]))) =
      join [slash] (above ++ [stem]) ++ ".rs" := by
    rw [relative_ofNames hroot (List.forall_mem_append.mpr ⟨habove, by simpa using isName_rs hstem⟩),
      join_concat_append]
  have hdrop (t : Text) : dropTail ".rs" (t ++ ".rs") = t := by
    rw [dropTail, if_pos (List.isSuffixOf_iff_suffix.mpr (List.suffix_append _ _)), List.length_append,
      Nat.add_sub_cancel, List.take_left]
  have hsplit : splitOn slash (join [slash] (above ++ [stem])) = above ++ [stem] :=
    splitOn_join (by simp) (List.forall_mem_append.mpr ⟨fun s hs => (habove s hs).2.1, by simpa using hstem⟩)
  rw [rustModulePath, hrelative, hdrop, hsplit]
  simp

section Root
variable {files : FileSet} {dirs : List Text}

theorem crateRootFrom_cases (hdirs : ∀ s ∈ dirs, IsName s) (files : FileSet) (own : Text) (n : Nat) :
    crateRootFrom files own n (ofNames dirs) = own ∨
      ∃ root below, dirs = root ++ below ∧ crateRootFrom files own n (ofNames dirs) = ofNames root := by
  induction n generalizing dirs with
  | zero => exact .inl rfl
  | succ n ih =>
    rw [crateRootFrom]
    split
    · exact .inr ⟨dirs, [], (List.append_nil dirs).symm, rfl⟩
    · split
      · exact .inl rfl
      · next hne =>
        cases dirs using List.reverseRec with
        | nil => exact absurd (by decide) hne
        | append_singleton dirs d =>
          obtain ⟨hdirs, hd⟩ := List.forall_mem_append.mp hdirs
          rw [directory_ofNames hdirs (hd d List.mem_cons_self)]
          refine (ih hdirs).imp_right ?_
          rintro ⟨root, below, rfl, hroot⟩
          exact ⟨root, below ++ [d], List.append_assoc root below [d], hroot⟩

end Root

namespace RustFile
variable (g : RustFile) {files : FileSet}

theorem directories_isName : ∀ d ∈ g.directories, IsName d := fun d hd => (g.directories_isIdentifier d hd).isName

theorem directory_path : directory g.path = ofNames g.directories :=
  directory_ofNames g.directories_isName (isName_rs g.stem_isIdentifier.2.1)

/-- The root of the crate is a directory on the way to the file. -/
theorem exists_crateRoot (files : FileSet) :
    ∃ root below, g.directories = root ++ below ∧ crateRoot g.path files = ofNames root := by
  rw [crateRoot, g.directory_path]
  rcases crateRootFrom_cases g.directories_isName files (ofNames g.directories) (g.path.length + 1) with hown | h
  · exact ⟨g.directories, [], (List.append_nil _).symm, hown⟩
  · exact h

end RustFile

section Find
variable {files : FileSet} {root : Text} {names : List Text} {h : Text}

/-- A module that has a file is found there. -/
theorem longestRustPrefix_of_file (hfile : rustModuleFile root names files = some h) :
    longestRustPrefix root files names = [h] := by
  rw [longestRustPrefix, List.range_succ, List.reverse_append, List.reverse_singleton, List.singleton_append,
    List.findSome?_cons, List.take_length, hfile]
  rfl

theorem find_crate_names (source : Text) (wildcard : Bool) (hnames : ∀ s ∈ names, IsIdentifier s) :
    find ⟨join "::" ("crate" :: names), wildcard⟩ source "rust" files =
      longestRustPrefix (crateRoot source files) files names := by
  have hcolons : ofString "::" = [unit ':', unit ':'] := by decide
  have hsegments : (splitText "::" (join "::" (ofString "crate" :: names))).filter (fun s => !s.isEmpty) =
      ofString "crate" :: names := by
    rw [hcolons, splitText_join (List.cons_ne_nil _ _) (List.forall_mem_cons.mpr
      ⟨by decide, fun s hs => (hnames s hs).2.2.2⟩)]
    exact List.filter_eq_self.mpr (List.forall_mem_cons.mpr ⟨by decide, fun s hs => by simpa using (hnames s hs).1⟩)
  have hfind : find ⟨join "::" ("crate" :: names), wildcard⟩ source "rust" files =
      rust (join "::" ("crate" :: names)) source files := rfl
  rw [hfind, rust, hsegments]
  rfl

end Find

/-- The module path of a file leads from the root of its crate to that file, or to the other one of its module. -/
def LeadsBack (files : FileSet) (root : List Text) (path : Text) : Prop :=
  ∃ h, rustModuleFile (ofNames root) (rustModulePath path (ofNames root)) files = some h ∧
    rustModulePath h (ofNames root) = rustModulePath path (ofNames root) ∧ (h = path ∨ SameModule (ofNames root) h path)

section LeadsBack
variable {files : FileSet} {root below : List Text} {stem : Text}

theorem joinAll_file (hroot : ∀ s ∈ root, IsName s) (hstem : slash ∉ stem) :
    joinAll [ofNames root, stem ++ ".rs"] = ofNames (root ++ [stem ++ ".rs"]) :=
  joinAll_ofNames hroot (by simpa using isName_rs hstem)

theorem rustModulePath_rootFile (stem : Text) (hroot : ∀ s ∈ root, IsName s) (hstem : stem = "lib" ∨ stem = "main") :
    rustModulePath (joinAll [ofNames root, stem ++ ".rs"]) (ofNames root) = [] := by
  have hslash : slash ∉ stem := by rcases hstem with rfl | rfl <;> decide
  have hnone : ∀ s ∈ ([] : List Text), IsName s := nofun
  have hpath := rustModulePath_ofNames hroot hnone hslash
  rw [List.nil_append] at hpath
  rw [joinAll_file hroot hslash, hpath]
  rcases hstem with rfl | rfl <;> rfl

/-- The root of a crate is found, `lib.rs` before `main.rs`. -/
theorem exists_rootFile (hroot : ∀ s ∈ root, IsName s) (hcrate : isCrateRoot files (ofNames root) = true) :
    ∃ h, rustModuleFile (ofNames root) [] files = some h ∧ rustModulePath h (ofNames root) = [] ∧
      (h = joinAll [ofNames root, "lib.rs"] ∨
        h = joinAll [ofNames root, "main.rs"] ∧ files.has (joinAll [ofNames root, "lib.rs"]) = false) := by
  by_cases hlib : files.has (joinAll [ofNames root, "lib.rs"]) = true
  · refine ⟨joinAll [ofNames root, "lib.rs"], ?_, rustModulePath_rootFile "lib" hroot (.inl rfl), .inl rfl⟩
    simp [rustModuleFile, hlib]
  · have hmain : files.has (joinAll [ofNames root, "main.rs"]) = true := by simpa [isCrateRoot, hlib] using hcrate
    refine ⟨joinAll [ofNames root, "main.rs"], ?_, rustModulePath_rootFile "main" hroot (.inr rfl),
      .inr ⟨rfl, by simpa using hlib⟩⟩
    simp [rustModuleFile, hlib, hmain]

theorem joinAll_rs (hroot : ∀ s ∈ root, IsName s) (hbelow : ∀ s ∈ below, IsName s) (hstem : IsName stem) :
    joinAll (ofNames root :: (below ++ [stem])) ++ ".rs" = ofNames (root ++ (below ++ [stem ++ ".rs"])) := by
  rw [joinAll_ofNames hroot (List.forall_mem_append.mpr ⟨hbelow, by simpa using hstem⟩), ← List.append_assoc,
    ← ofNames_concat_append, List.append_assoc]

theorem leadsBack_rootFile (hroot : ∀ s ∈ root, IsName s) (hcrate : isCrateRoot files (ofNames root) = true)
    (hstem : stem = "lib" ∨ stem = "main") (hg : files.has (ofNames (root ++ [stem ++ ".rs"])) = true) :
    LeadsBack files root (ofNames (root ++ [stem ++ ".rs"])) := by
  have hslash : slash ∉ stem := by rcases hstem with rfl | rfl <;> decide
  rw [← joinAll_file hroot hslash] at hg ⊢
  rw [LeadsBack, rustModulePath_rootFile stem hroot hstem]
  obtain ⟨h, hfile, hpath, hlib | ⟨hmain, hnone⟩⟩ := exists_rootFile hroot hcrate
  · refine ⟨h, hfile, hpath, ?_⟩
    rw [hlib]
    rcases hstem with rfl | rfl
    · exact .inl rfl
    · exact .inr .roots
  · refine ⟨h, hfile, hpath, .inl ?_⟩
    rw [hmain]
    rcases hstem with rfl | rfl
    · exact absurd (hg.symm.trans hnone) (by decide)
    · rfl

/-- Before the `mod.rs` of a directory the file beside the directory is found, before that of the crate its root. -/
theorem leadsBack_modFile (hroot : ∀ s ∈ root, IsName s) (hcrate : isCrateRoot files (ofNames root) = true)
    (hbelow : ∀ s ∈ below, IsName s) (hne : ∀ s ∈ below, s ≠ "mod" ∧ s ≠ "lib" ∧ s ≠ "main")
    (hg : files.has (ofNames (root ++ (below ++ [ofString "mod" ++ ".rs"]))) = true) :
    LeadsBack files root (ofNames (root ++ (below ++ [ofString "mod" ++ ".rs"]))) := by
  have hslash : slash ∉ ofString "mod" := by decide
  have hmodule : rustModulePath (ofNames (root ++ (below ++ [ofString "mod" ++ ".rs"]))) (ofNames root) = below := by
    rw [rustModulePath_ofNames hroot hbelow hslash, if_pos rfl]
  have hown :
      joinAll (ofNames root :: below ++ [ofString "mod.rs"]) = ofNames (root ++ (below ++ [ofString "mod" ++ ".rs"])) :=
    joinAll_ofNames hroot (List.forall_mem_append.mpr ⟨hbelow, List.forall_mem_singleton.mpr (isName_rs hslash)⟩)
  rw [LeadsBack, hmodule, ← hown]
  cases below using List.reverseRec with
  | nil =>
    obtain ⟨h, hfile, hempty, hlib | ⟨hmain, -⟩⟩ := exists_rootFile hroot hcrate
    · exact ⟨h, hfile, hempty, .inr (hlib ▸ .lib)⟩
    · exact ⟨h, hfile, hempty, .inr (hmain ▸ .main)⟩
  | append_singleton above d =>
    obtain ⟨habove, hd⟩ := List.forall_mem_append.mp hbelow
    have hd := hd d List.mem_cons_self
    have hfirst := joinAll_rs hroot habove hd
    by_cases hhas : files.has (joinAll (ofNames root :: (above ++ [d])) ++ ".rs") = true
    · refine ⟨joinAll (ofNames root :: (above ++ [d])) ++ ".rs", by simp [rustModuleFile, hhas], ?_,
        .inr (.directory (by simp))⟩
      rw [hfirst, rustModulePath_ofNames hroot habove hd.2.1]
      simp [hne d]
    · rw [← hown] at hg
      exact ⟨_, by simpa [rustModuleFile, hhas] using hg, by rw [hown, hmodule], .inl rfl⟩

/-- Any other file is the first that its module path asks for. -/
theorem leadsBack_namedFile (hroot : ∀ s ∈ root, IsName s) (hbelow : ∀ s ∈ below, IsName s) (hstem : IsName stem)
    (hmod : stem ≠ "mod") (hfile : ¬(below = [] ∧ (stem = "lib" ∨ stem = "main")))
    (hg : files.has (ofNames (root ++ (below ++ [stem ++ ".rs"]))) = true) :
    LeadsBack files root (ofNames (root ++ (below ++ [stem ++ ".rs"]))) := by
  have hmodule := rustModulePath_ofNames hroot hbelow hstem.2.1
  rw [if_neg hmod, if_neg hfile] at hmodule
  have hown := joinAll_rs hroot hbelow hstem
  rw [← hown] at hg hmodule ⊢
  rw [LeadsBack, hmodule]
  exact ⟨_, by simp [rustModuleFile, hg], hmodule, .inl rfl⟩

end LeadsBack

namespace RustFile
variable (g : RustFile) {files : FileSet}

theorem path_eq {root below : List Text} (hdirs : g.directories = root ++ below) :
    g.path = ofNames (root ++ (below ++ [g.stem ++ ".rs"])) := by
  rw [path, hdirs, List.append_assoc]

theorem names_isName {root below : List Text} (hdirs : g.directories = root ++ below) :
    (∀ s ∈ root, IsName s) ∧ ∀ s ∈ below, IsName s :=
  List.forall_mem_append.mp (hdirs ▸ g.directories_isName)

theorem rustModulePath_isIdentifier {root below : List Text} (hdirs : g.directories = root ++ below) :
    ∀ s ∈ rustModulePath g.path (ofNames root), IsIdentifier s := by
  obtain ⟨hroot, hbelow⟩ := g.names_isName hdirs
  have hnames : ∀ s ∈ below ++ [g.stem], IsIdentifier s := List.forall_mem_append.mpr
    ⟨fun s hs => g.directories_isIdentifier s (by simp [hdirs, hs]), List.forall_mem_singleton.mpr g.stem_isIdentifier⟩
  rw [g.path_eq hdirs, rustModulePath_ofNames hroot hbelow g.stem_isIdentifier.2.1]
  split
  · exact fun s hs => hnames s (List.mem_append_left _ hs)
  · split
    · exact nofun
    · exact hnames

/-- Each file of a crate is found by its module path from the crate, or the other file of its module is. -/
theorem leadsBack_path {root below : List Text} (hdirs : g.directories = root ++ below) (hg : files.has g.path = true)
    (hcrate : isCrateRoot files (ofNames root) = true) : LeadsBack files root g.path := by
  obtain ⟨hroot, hbelow⟩ := g.names_isName hdirs
  rw [g.path_eq hdirs] at hg ⊢
  by_cases hmod : g.stem = "mod"
  · rw [hmod] at hg ⊢
    exact leadsBack_modFile hroot hcrate hbelow (fun d hd => g.directories_ne d (by simp [hdirs, hd])) hg
  · by_cases hfile : below = [] ∧ (g.stem = "lib" ∨ g.stem = "main")
    · obtain ⟨rfl, hstem⟩ := hfile
      exact leadsBack_rootFile hroot hcrate hstem hg
    · exact leadsBack_namedFile hroot hbelow g.stem_isIdentifier.isName hmod hfile hg

end RustFile

/-- From any file of a crate the module path of each of its files leads to just one file, of the same module: the
file itself, or the other one that its module has. -/
theorem find_crate {files : FileSet} {source : Text} {g : RustFile} (wildcard : Bool) (hg : g.path ∈ files.paths)
    (hsource : crateRoot source files = crateRoot g.path files)
    (hcrate : isCrateRoot files (crateRoot source files) = true) :
    ∃ h ∈ files.paths,
      find ⟨join "::" ("crate" :: rustModulePath g.path (crateRoot source files)), wildcard⟩ source "rust" files = [h] ∧
        rustModulePath h (crateRoot source files) = rustModulePath g.path (crateRoot source files) ∧
          (h = g.path ∨ SameModule (crateRoot source files) h g.path) := by
  obtain ⟨root, below, hdirs, hroot⟩ := g.exists_crateRoot files
  rw [hsource, hroot] at hcrate ⊢
  obtain ⟨h, hfile, hmodule, hsame⟩ := g.leadsBack_path hdirs (List.elem_iff.mpr hg) hcrate
  refine ⟨h, mem_rustModuleFile hfile, ?_, hmodule, hsame⟩
  rw [find_crate_names source wildcard (g.rustModulePath_isIdentifier hdirs), hsource, hroot,
    longestRustPrefix_of_file hfile]

def nestedCrates : FileSet :=
  ⟨["main.rs", "net.rs", "net/mod.rs", "net/tcp/mod.rs", "tools/lib.rs", "tools/net/tcp.rs"]⟩

theorem find_crate_nested : ∃ h ∈ nestedCrates.paths,
    find ⟨join "::" ("crate" :: rustModulePath "net/mod.rs" (crateRoot "net/tcp/mod.rs" nestedCrates)), false⟩
      "net/tcp/mod.rs" "rust" nestedCrates = [h] ∧
      rustModulePath h (crateRoot "net/tcp/mod.rs" nestedCrates) =
        rustModulePath "net/mod.rs" (crateRoot "net/tcp/mod.rs" nestedCrates) ∧
        (h = "net/mod.rs" ∨ SameModule (crateRoot "net/tcp/mod.rs" nestedCrates) h "net/mod.rs") :=
  find_crate (g := ⟨["net"], "mod", by decide, by decide, by decide⟩) false (by decide) (by decide) (by decide)

end ModuleTarget
end AnnotationIndex
