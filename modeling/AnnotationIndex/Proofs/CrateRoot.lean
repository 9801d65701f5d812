import AnnotationIndex.Proofs.Climbing
import Mathlib.Logic.Function.Iterate

/-!
The search for the root of a crate ends. From a relative path the directories above it come down to the current one,
in no more steps than the path has segments, so that the search never uses up its fuel: it gives the nearest of them
that holds the root of a crate, and the file's own where none does. From an absolute path it does not end in a
project without crates.
-/
namespace AnnotationIndex
open Text

namespace Path

/-- The directories from one upwards, the nearest first, as far as the current one. -/
inductive Ancestry : Text → List Text → Prop
  | current : Ancestry "." ["."]
  | climb {dir : Text} {above : List Text} (hne : dir ≠ ".") (habove : Ancestry (directory dir) above) :
      Ancestry dir (dir :: above)

variable {p : Text}

theorem depth_cons_le (u : UInt16) (p : Text) : depth (u :: p) ≤ depth p + 1 := by
  by_cases hu : u = slash
  · simp [depth, splitOn, hu]
  · cases hs : splitOn slash p with
    | nil => simp [depth, splitOn, hu, hs]
    | cons piece more => simp [depth, splitOn, hu, hs, List.countP_cons]

theorem depth_le_length (p : Text) : depth p ≤ p.length := by
  induction p with
  | nil => exact Nat.le_of_eq rfl
  | cons u p ih => exact (depth_cons_le u p).trans (Nat.succ_le_succ ih)

theorem prefix_dropSlashes (p : Text) : dropSlashes p <+: p := by
  obtain ⟨n, hn⟩ := dropSlashes_append p
  exact ⟨List.replicate n slash, hn.symm⟩

theorem isAbsolute_of_prefix {s t : Text} (h : isAbsolute t = true) (hbegins : s <+: t) (hne : s ≠ []) :
    isAbsolute s = true := by
  obtain ⟨rest, rfl⟩ := hbegins
  rwa [isAbsolute_append hne] at h

theorem isAbsolute_directory (h : isAbsolute p = true) : isAbsolute (directory p) = true := by
  have hbegins : ((dropSlashes p).reverse.dropWhile (· != slash)).reverse <+: p := by
    have hsuffix : (dropSlashes p).reverse.dropWhile (· != slash) <:+ (dropSlashes p).reverse := List.dropWhile_suffix _
    exact (List.reverse_suffix.mp (by rwa [List.reverse_reverse])).trans (prefix_dropSlashes p)
  unfold directory
  dsimp only
  split
  · rw [if_pos h]
    rfl
  · rfl
  · next u above hnonempty hhead =>
    split
    · rfl
    · rw [hhead, List.reverse_cons] at hbegins
      exact isAbsolute_of_prefix h ((List.prefix_append _ _).trans hbegins) (List.reverse_eq_nil_iff.not.mpr hnonempty)

end Path

namespace ModuleTarget
open AnnotationIndex.Path

section Ancestry
variable {source dir : Text} {n : Nat}

theorem exists_ancestry_of_up (h : up n dir = ".") : ∃ dirs, Ancestry dir dirs ∧ dirs.length ≤ n + 1 := by
  induction n generalizing dir with
  | zero =>
    have hcurrent : dir = "." := h
    exact ⟨["."], hcurrent ▸ .current, Nat.le_refl 1⟩
  | succ n ih =>
    by_cases hcurrent : dir = "."
    · exact ⟨["."], hcurrent ▸ .current, Nat.le_add_left 1 (n + 1)⟩
    · obtain ⟨above, habove, hlength⟩ := ih h
      exact ⟨dir :: above, .climb hcurrent habove, Nat.succ_le_succ hlength⟩

/-- Above the directory of a relative path lies the current one, at most as many steps up as there are segments. -/
theorem exists_ancestry_directory (h : isAbsolute source = false) :
    ∃ dirs, Ancestry (directory source) dirs ∧ dirs.length ≤ max 1 (depth source) := by
  have htop : up (depth source - 1) (directory source) = "." := up_directory h (by omega)
  obtain ⟨dirs, hdirs, hlength⟩ := exists_ancestry_of_up htop
  exact ⟨dirs, hdirs, by omega⟩

end Ancestry

inductive CrateSearch where
  | trying (dir : Text)
  | found (root : Text)

namespace CrateSearch

def round (files : FileSet) (own : Text) : CrateSearch → CrateSearch
  | trying dir =>
    if isCrateRoot files dir then found dir
    else if dir == ("." : Text) then found own
    else trying (directory dir)
  | found root => found root

variable {files : FileSet} {own dir root : Text} {dirs : List Text} {n m : Nat}

theorem round_crate (h : isCrateRoot files dir = true) : round files own (trying dir) = found dir := if_pos h

theorem round_current (h : isCrateRoot files "." = false) : round files own (trying ".") = found own := by
  simp [round, h]

theorem round_climb (h : isCrateRoot files dir = false) (hne : dir ≠ ".") :
    round files own (trying dir) = trying (directory dir) := by
  simp [round, h, hne]

/-- A search that is over stays so. -/
theorem rounds_found (n : Nat) : (round files own)^[n] (found root) = found root := Function.iterate_fixed rfl n

theorem rounds_of_le {s : CrateSearch} (h : (round files own)^[n] s = found root) (hle : n ≤ m) :
    (round files own)^[m] s = found root := by
  obtain ⟨k, rfl⟩ := Nat.exists_eq_add_of_le' hle
  rw [Function.iterate_add_apply, h, rounds_found]

/-- A search is over after a round for each directory above. -/
theorem rounds_ancestry (h : Ancestry dir dirs) :
    (round files own)^[dirs.length] (trying dir) = found ((dirs.find? (isCrateRoot files)).getD own) := by
  induction h with
  | current =>
    rw [List.length_singleton, Function.iterate_one]
    cases hcrate : isCrateRoot files "." with
    | true => rw [round_crate hcrate, List.find?_cons_of_pos hcrate, Option.getD_some]
    | false => rw [round_current hcrate, List.find?_cons_of_neg (by simp [hcrate]), List.find?_nil, Option.getD_none]
  | @climb dir above hne _ ih =>
    rw [List.length_cons, Function.iterate_succ_apply]
    -- a search that is over here passes the rounds for the directories above without a change
    cases hcrate : isCrateRoot files dir with
    | true => rw [round_crate hcrate, rounds_found, List.find?_cons_of_pos hcrate, Option.getD_some]
    | false => rw [round_climb hcrate hne, ih, List.find?_cons_of_neg (by simp [hcrate])]

/-- With fuel for all its rounds the search gives what they find. -/
theorem crateRootFrom_of_rounds (h : (round files own)^[n] (trying dir) = found root) :
    crateRootFrom files own n dir = root := by
  induction n generalizing dir with
  -- without a round the search has not found anything yet
  | zero => exact absurd h nofun
  | succ n ih =>
    rw [Function.iterate_succ_apply] at h
    rw [crateRootFrom]
    cases hcrate : isCrateRoot files dir with
    | true =>
      rw [round_crate hcrate, rounds_found] at h
      exact (if_pos rfl).trans (CrateSearch.found.inj h)
    | false =>
      -- a climb takes one from the fuel and one from the rounds
      by_cases hcurrent : dir = "."
      · subst hcurrent
        rw [round_current hcrate, rounds_found] at h
        exact CrateSearch.found.inj h
      · rw [round_climb hcrate hcurrent] at h
        simpa [hcurrent] using ih h

/-- Without crates a search from an absolute directory goes on upwards. -/
theorem rounds_absolute (h : isAbsolute dir = true) (n : Nat) :
    (round ⟨[]⟩ own)^[n] (trying dir) = trying (directory^[n] dir) := by
  induction n generalizing dir with
  | zero => rfl
  | succ n ih =>
    have hne : dir ≠ "." := fun he => absurd (he ▸ h) (by decide)
    rw [Function.iterate_succ_apply, Function.iterate_succ_apply, round_climb rfl hne, ih (isAbsolute_directory h)]

/-- From the relative paths, and no others, a search ends whatever files there are. -/
theorem ends_iff {source : Text} :
    (∀ files, ∃ n root, (round files (directory source))^[n] (trying (directory source)) = found root) ↔
      isAbsolute source = false := by
  constructor
  · intro h
    obtain ⟨n, root, hn⟩ := h ⟨[]⟩
    refine Bool.eq_false_iff.mpr fun habs => ?_
    rw [rounds_absolute (isAbsolute_directory habs)] at hn
    exact absurd hn nofun
  · intro h files
    obtain ⟨dirs, hdirs, -⟩ := exists_ancestry_directory h
    exact ⟨dirs.length, _, rounds_ancestry hdirs⟩

end CrateSearch

/-- From a relative path the search is over after a round for each directory up to the current one: no more rounds
than the path has segments, or one. It gives the nearest that holds the root of a crate, and the file's own
directory if none does. -/
theorem crateRoot_nearest (files : FileSet) {source : Text} (hsource : isAbsolute source = false) :
    ∃ dirs, Ancestry (directory source) dirs ∧ dirs.length ≤ max 1 (depth source) ∧
      (CrateSearch.round files (directory source))^[dirs.length] (.trying (directory source)) =
        .found (crateRoot source files) ∧
      crateRoot source files = (dirs.find? (isCrateRoot files)).getD (directory source) := by
  obtain ⟨dirs, hdirs, hlength⟩ := exists_ancestry_directory hsource
  have hrounds : (CrateSearch.round files (directory source))^[dirs.length] (.trying (directory source)) =
      .found ((dirs.find? (isCrateRoot files)).getD (directory source)) := CrateSearch.rounds_ancestry hdirs
  have hfuel : dirs.length ≤ source.length + 1 := by
    have hdepth := depth_le_length source
    omega
  have hroot : crateRoot source files = (dirs.find? (isCrateRoot files)).getD (directory source) :=
    CrateSearch.crateRootFrom_of_rounds (CrateSearch.rounds_of_le hrounds hfuel)
  exact ⟨dirs, hdirs, hlength, hroot ▸ hrounds, hroot⟩

def innerCrate : FileSet := ⟨["a/b/x.rs", "a/lib.rs", "main.rs"]⟩

/-- A step up and down again does not lead past the nearest crate. -/
theorem crateRoot_nearest_roundabout :
    isAbsolute "a/./b//../b/x.rs" = false ∧ crateRoot "a/./b//../b/x.rs" innerCrate = "a/./b//.." ∧
      ∃ dirs, Ancestry (directory "a/./b//../b/x.rs") dirs ∧ dirs.length ≤ max 1 (depth "a/./b//../b/x.rs") ∧
        (CrateSearch.round innerCrate (directory "a/./b//../b/x.rs"))^[dirs.length]
          (.trying (directory "a/./b//../b/x.rs")) = .found (crateRoot "a/./b//../b/x.rs" innerCrate) ∧
        crateRoot "a/./b//../b/x.rs" innerCrate =
          (dirs.find? (isCrateRoot innerCrate)).getD (directory "a/./b//../b/x.rs") :=
  ⟨by decide, by decide, crateRoot_nearest innerCrate (by decide)⟩

end ModuleTarget
end AnnotationIndex
