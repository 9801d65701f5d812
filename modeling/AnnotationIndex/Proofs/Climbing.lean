import AnnotationIndex.Proofs.ModuleTarget
import AnnotationIndex.Proofs.Segments
import Mathlib.Data.List.TakeWhile

/-!
Relative specifiers that climb above the directory of a project. A chain of `super` that is too long finds nothing.
Points that climb too far stop at that directory, and a script specifier that ends right above it takes the two
points for the beginning of a name, so that both can find a file of the project.
-/
namespace AnnotationIndex
open Text

namespace Path

def depth (p : Text) : Nat := (splitOn slash p).countP fun s => !s.isEmpty

theorem depth_append (s t : Text) : depth (s ++ slash :: t) = depth s + depth t := by
  rw [depth, splitOn_append, List.countP_append]
  rfl

theorem depth_of_not_mem {t : Text} (h : slash ∉ t) (hne : t ≠ []) : depth t = 1 := by
  rw [depth, splitOn_of_not_mem h]
  cases t with
  | nil => exact absurd rfl hne
  | cons u t => rfl

/-- A path that does not begin with a slash begins with a segment. -/
theorem depth_pos {p : Text} (h : isAbsolute p = false) (hne : p ≠ []) : 0 < depth p := by
  cases p with
  | nil => exact absurd rfl hne
  | cons u p =>
    have hu : u ≠ slash := by simpa [isAbsolute] using h
    cases hs : splitOn slash p <;> simp [depth, splitOn, hu, hs]

theorem depth_append_slashes (p : Text) (n : Nat) : depth (p ++ List.replicate n slash) = depth p := by
  induction n with
  | zero => rw [List.replicate_zero, List.append_nil]
  | succ n ih =>
    have hone : p ++ List.replicate (n + 1) slash = (p ++ List.replicate n slash) ++ slash :: [] := by
      rw [List.replicate_succ', List.append_assoc]
    rw [hone, depth_append, ih]
    rfl

/-- A path is what remains of it without its last slashes, and those. -/
theorem dropSlashes_append (p : Text) : ∃ n, p = dropSlashes p ++ List.replicate n slash := by
  refine ⟨(p.reverse.takeWhile (· == slash)).length, ?_⟩
  have hall : (p.reverse.takeWhile (· == slash)).reverse =
      List.replicate (p.reverse.takeWhile (· == slash)).length slash := by
    refine List.eq_replicate_iff.mpr ⟨List.length_reverse, fun u hu => ?_⟩
    simpa using List.mem_takeWhile_imp (List.mem_reverse.mp hu)
  rw [← hall, dropSlashes, ← List.reverse_append, List.takeWhile_append_dropWhile, List.reverse_reverse]

theorem depth_dropSlashes (p : Text) : depth (dropSlashes p) = depth p := by
  obtain ⟨n, hn⟩ := dropSlashes_append p
  calc depth (dropSlashes p) = depth (dropSlashes p ++ List.replicate n slash) := (depth_append_slashes _ n).symm
    _ = depth p := by rw [← hn]

theorem isAbsolute_append {s t : Text} (h : s ≠ []) : isAbsolute (s ++ t) = isAbsolute s := by
  cases s with
  | nil => exact absurd rfl h
  | cons u s => rfl

theorem isAbsolute_dropSlashes {p : Text} (h : isAbsolute p = false) : isAbsolute (dropSlashes p) = false := by
  obtain ⟨n, hn⟩ := dropSlashes_append p
  by_cases hd : dropSlashes p = []
  · rw [hd]; rfl
  · rw [hn, isAbsolute_append hd] at h
    exact h

/-- What a path ends in after its last slashes are gone is a segment. -/
theorem takeWhile_dropSlashes_ne_nil {p : Text} (h : dropSlashes p ≠ []) :
    (dropSlashes p).reverse.takeWhile (· != slash) ≠ [] := by
  have hr : (dropSlashes p).reverse = p.reverse.dropWhile (· == slash) := by rw [dropSlashes, List.reverse_reverse]
  cases hs : p.reverse.dropWhile (· == slash) with
  | nil => exact absurd (List.reverse_eq_nil_iff.mp (hr.trans hs)) h
  | cons u rest =>
    have hu : (u == slash) = false := by
      have hnot := List.head?_dropWhile_not (· == slash) p.reverse
      rw [hs] at hnot
      exact hnot
    rw [hr, hs, List.takeWhile_cons_of_pos (by simp [bne, hu])]
    exact List.cons_ne_nil _ _

/-- The directory of a relative path is the current one, or lies one segment higher. -/
theorem directory_cases {p : Text} (h : isAbsolute p = false) :
    directory p = "." ∨
      isAbsolute (directory p) = false ∧ 0 < depth (directory p) ∧ depth p = depth (directory p) + 1 := by
  have hq := isAbsolute_dropSlashes h
  have hsplit := List.takeWhile_append_dropWhile (p := (· != slash)) (l := (dropSlashes p).reverse)
  cases hhead : (dropSlashes p).reverse.dropWhile (· != slash) with
  | nil => exact .inl (by simp [directory, hhead, h])
  | cons u above =>
    have hu : u = slash := by
      simpa [hhead] using List.head?_dropWhile_not (· != slash) (dropSlashes p).reverse
    subst hu
    have hlast : slash ∉ ((dropSlashes p).reverse.takeWhile (· != slash)).reverse := fun hm => by
      simpa using List.mem_takeWhile_imp (List.mem_reverse.mp hm)
    have hwhole : dropSlashes p =
        above.reverse ++ slash :: ((dropSlashes p).reverse.takeWhile (· != slash)).reverse := by
      rw [hhead] at hsplit
      simpa using (congrArg List.reverse hsplit).symm
    have hne : ((dropSlashes p).reverse.takeWhile (· != slash)).reverse ≠ [] := by
      refine List.reverse_eq_nil_iff.not.mpr (takeWhile_dropSlashes_ne_nil fun hnil => ?_)
      simp [hnil] at hhead
    have habove : above.reverse ≠ [] := fun hnil => by
      rw [hwhole, hnil] at hq
      simp [isAbsolute] at hq
    have habs : isAbsolute above.reverse = false := by
      rw [hwhole, isAbsolute_append habove] at hq
      exact hq
    have hdir : directory p = above.reverse := by
      have hroot : above.reverse ≠ ("/" : Text) := fun he => by simp [he] at habs; exact absurd habs (by decide)
      cases above with
      | nil => exact absurd rfl habove
      | cons v above => simp only [directory, hhead]; simpa using fun he => absurd (by simpa using he) hroot
    refine .inr ⟨hdir ▸ habs, hdir ▸ depth_pos habs habove, ?_⟩
    rw [hdir, ← depth_dropSlashes p, hwhole, depth_append, depth_of_not_mem hlast hne]

end Path

namespace ModuleTarget
open AnnotationIndex.Path

def leadingDots (specifier : Text) : Nat := (specifier.takeWhile (· == dot)).length

def dottedNames (specifier : Text) : List Text :=
  let rest := specifier.drop (leadingDots specifier)
  if rest.isEmpty then [] else splitOn dot rest

def superChain (specifier : Text) : Nat :=
  (((splitText "::" specifier).filter fun s => !s.isEmpty).takeWhile fun s => s == ("super" : Text)).length

def scriptBase (source specifier : Text) : Text := normalize (joinAll [directory source, specifier])

def LeavesTop (p : Text) : Prop := p = ".." ∨ startsWith p "../" = true

instance : DecidablePred LeavesTop := fun p => inferInstanceAs (Decidable (p = ".." ∨ startsWith p "../" = true))

inductive ClimbsOut (files : FileSet) (source specifier : Text) : Text → Prop
  | script {language : Text} (hlanguage : language = "typescript" ∨ language = "javascript")
      (hrelative : isRelative specifier = true) (hleaves : LeavesTop (scriptBase source specifier)) :
      ClimbsOut files source specifier language
  | python (hdots : depth source < leadingDots specifier) : ClimbsOut files source specifier "python"
  | rust (hsupers : (rustModulePath source (crateRoot source files)).length < superChain specifier) :
      ClimbsOut files source specifier "rust"

/-- The names in the project's own directory that a specifier is read as all the same. -/
def strays (source specifier language : Text) : List Text :=
  if language == ("python" : Text) then pythonCandidates (dottedNames specifier) "."
  else if language == ("rust" : Text) then []
  else if scriptBase source specifier == (".." : Text) then scriptExtensions.map ((".." : Text) ++ ·)
  else []

section Python

theorem up_current (n : Nat) : up n "." = "." := by
  induction n with
  | zero => rfl
  | succ n ih => exact ih

/-- Climbing from a file by as many directories as it has segments, or more, ends in the project's own. -/
theorem up_directory {n : Nat} {source : Text} (habs : isAbsolute source = false) (h : depth source ≤ n + 1) :
    up n (directory source) = "." := by
  induction n generalizing source with
  | zero =>
    rcases directory_cases habs with hd | ⟨_, hpos, hdepth⟩
    · exact hd
    · omega
  | succ n ih =>
    rcases directory_cases habs with hd | ⟨hrel, _, hdepth⟩
    · rw [hd]
      exact up_current (n + 1)
    · exact ih hrel (by omega)

theorem python_climbing {source specifier : Text} (files : FileSet) (habs : isAbsolute source = false)
    (h : depth source < leadingDots specifier) :
    python specifier source files = files.firstOf (pythonCandidates (dottedNames specifier) ".") := by
  have hbases : pythonBases (leadingDots specifier) source = [(("." : String) : Text)] := by
    rw [pythonBases, if_neg (by omega), up_directory habs (by omega)]
  calc python specifier source files
      = files.firstOf ((pythonBases (leadingDots specifier) source).flatMap
          (pythonCandidates (dottedNames specifier))) := rfl
    _ = files.firstOf (pythonCandidates (dottedNames specifier) ".") := by
      rw [hbases, List.flatMap_cons, List.flatMap_nil, List.append_nil]

end Python

section Script

/-- Of the candidates right above the project only those that begin as a name does can be its files. -/
theorem firstOf_parent {files : FileSet} (hfiles : ∀ p ∈ files.paths, ¬LeavesTop p) :
    files.firstOf (scriptCandidates "..") = files.firstOf (scriptExtensions.map ((".." : Text) ++ ·)) := by
  have hsplit : scriptCandidates ".." = (".." : Text) :: scriptExtensions.map ((".." : Text) ++ ·) ++
      scriptExtensions.map fun e => joinAll ["..", ("index" : Text) ++ e] := by decide
  have hown : files.has ".." = false := by
    simpa [FileSet.has] using fun hm => hfiles _ hm (.inl rfl)
  have hindex : (scriptExtensions.map fun e => joinAll ["..", ("index" : Text) ++ e]).find? files.has = none := by
    have habove : ∀ c ∈ scriptExtensions.map fun e => joinAll ["..", ("index" : Text) ++ e],
        startsWith c "../" = true := by decide
    refine List.find?_eq_none.mpr fun c hc hhas => ?_
    exact hfiles c (FileSet.mem_of_has hhas) (.inr (habove c hc))
  rw [FileSet.firstOf, hsplit, List.find?_append, hindex, List.find?_cons_of_neg (by simp [hown]), Option.or_none]
  rfl

theorem script_climbing {files : FileSet} {source specifier : Text} (hfiles : ∀ p ∈ files.paths, ¬LeavesTop p)
    (hrelative : isRelative specifier = true) (h : LeavesTop (scriptBase source specifier)) :
    script specifier source files =
      files.firstOf (if scriptBase source specifier == (".." : Text) then scriptExtensions.map ((".." : Text) ++ ·)
        else []) := by
  have hscript : script specifier source files =
      if startsWith (scriptBase source specifier) "../" then []
      else files.firstOf (scriptCandidates (scriptBase source specifier)) := by
    rw [script, hrelative]
    rfl
  rw [hscript]
  rcases h with hparent | habove
  · rw [hparent, if_neg (by decide), if_pos (by decide), firstOf_parent hfiles]
  · have hne : (scriptBase source specifier == (".." : Text)) = false := by
      simpa using fun he => absurd (he ▸ habove) (by decide)
    rw [if_pos habove, hne]
    rfl

end Script

theorem rust_climbing {files : FileSet} {source specifier : Text}
    (h : (rustModulePath source (crateRoot source files)).length < superChain specifier) :
    rust specifier source files = [] := by
  cases hsegments : (splitText "::" specifier).filter fun s => !s.isEmpty with
  | nil => simp [rust, hsegments]
  | cons first rest =>
    have hfirst : first = "super" := by
      by_contra hne
      simp [superChain, hsegments, hne] at h
    subst hfirst
    rw [superChain, hsegments] at h
    simp only [rust, hsegments, if_pos h]
    rfl

/-- A specifier that climbs above the project finds nothing but a file of the project's own directory that one of its
stray names names; so it finds nothing exactly when there is none. -/
theorem find_climbing {files : FileSet} {source specifier language : Text} (wildcard : Bool)
    (hfiles : ∀ p ∈ files.paths, ¬LeavesTop p) (hsource : isAbsolute source = false)
    (hclimbs : ClimbsOut files source specifier language) :
    find ⟨specifier, wildcard⟩ source language files = files.firstOf (strays source specifier language) ∧
      (find ⟨specifier, wildcard⟩ source language files = [] ↔
        ∀ p ∈ strays source specifier language, p ∉ files.paths) := by
  have hfind : find ⟨specifier, wildcard⟩ source language files = files.firstOf (strays source specifier language) := by
    cases hclimbs with
    | script hlanguage hrelative hleaves =>
      rcases hlanguage with rfl | rfl <;> exact script_climbing hfiles hrelative hleaves
    | python hdots => exact python_climbing files hsource hdots
    | rust hsupers => exact rust_climbing hsupers
  refine ⟨hfind, ?_⟩
  rw [hfind, FileSet.firstOf, Option.toList_eq_nil_iff, List.find?_eq_none]
  simp [FileSet.has]

def climbedFiles : FileSet := ⟨["...ts", "a.py", "a.ts", "b.py", "p/c.py"]⟩

theorem find_climbing_package :
    find ⟨"...b", false⟩ "p/c.py" "python" climbedFiles = [ofString "b.py"] ∧
      find ⟨"...d", false⟩ "p/c.py" "python" climbedFiles = [] :=
  ⟨(find_climbing false (by decide) (by decide) (.python (by decide))).1.trans (by decide),
    (find_climbing false (by decide) (by decide) (.python (by decide))).2.mpr (by decide)⟩

/-- Both ways in which a specifier that climbs above the project finds a file of it. -/
theorem climbing_finds :
    (∀ p ∈ climbedFiles.paths, ¬LeavesTop p) ∧
      ClimbsOut climbedFiles "a.py" "..b" "python" ∧
      find ⟨"..b", false⟩ "a.py" "python" climbedFiles = [(("b.py" : String) : Text)] ∧
      ClimbsOut climbedFiles "a.ts" ".." "typescript" ∧
      find ⟨"..", false⟩ "a.ts" "typescript" climbedFiles = [(("...ts" : String) : Text)] :=
  ⟨by decide, .python (by decide), by decide, .script (.inl rfl) (by decide) (by decide), by decide⟩

end ModuleTarget
end AnnotationIndex
