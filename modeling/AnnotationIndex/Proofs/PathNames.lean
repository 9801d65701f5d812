import AnnotationIndex.Proofs.Climbing
import Mathlib.Data.List.Induction

/-!
Paths as lists of names. A relative path in normal form is the names on the way joined by slashes, or a single dot
if there are none. Joining, the directory of a path and the way from one path to another are operations on those
lists.
-/
namespace AnnotationIndex
open Text

namespace Path

def IsName (s : Text) : Prop := s ≠ [] ∧ slash ∉ s ∧ s ≠ "." ∧ s ≠ ".."

def ofNames (names : List Text) : Text := if names.isEmpty then "." else join [slash] names

variable {names dirs : List Text}

theorem ofNames_of_ne_nil (h : names ≠ []) : ofNames names = join [slash] names := if_neg (by simpa using h)

/-- What is added to the last name is added to the path. -/
theorem ofNames_concat_append (names : List Text) (s t : Text) :
    ofNames (names ++ [s ++ t]) = ofNames (names ++ [s]) ++ t := by
  rw [ofNames_of_ne_nil (by simp), ofNames_of_ne_nil (by simp), join_concat_append]

theorem join_ne_nil (hne : names ≠ []) (h : ∀ s ∈ names, IsName s) : join [slash] names ≠ [] := by
  obtain ⟨s, rest, rfl⟩ := List.exists_cons_of_ne_nil hne
  have hs : s ≠ [] := (h s List.mem_cons_self).1
  cases rest with
  | nil => exact hs
  | cons t rest => exact List.append_ne_nil_of_left_ne_nil (List.append_ne_nil_of_left_ne_nil hs _) _

theorem ofNames_ne_nil (h : ∀ s ∈ names, IsName s) : ofNames names ≠ [] := by
  by_cases hne : names = []
  · subst hne
    decide
  · rw [ofNames_of_ne_nil hne]
    exact join_ne_nil hne h

theorem isAbsolute_ofNames (h : ∀ s ∈ names, IsName s) : isAbsolute (ofNames names) = false := by
  cases names with
  | nil => decide
  | cons s rest =>
    obtain ⟨hne, hslash, -⟩ := h s List.mem_cons_self
    obtain ⟨u, t, rfl⟩ := List.exists_cons_of_ne_nil hne
    have hu : u ≠ slash := fun he => hslash (he ▸ List.mem_cons_self)
    rw [ofNames_of_ne_nil (List.cons_ne_nil _ _)]
    cases rest <;> simp [join, isAbsolute, hu]

theorem getLast?_join_concat (pieces : List Text) {s : Text} (hne : s ≠ []) :
    (join [slash] (pieces ++ [s])).getLast? = s.getLast? := by
  cases pieces with
  | nil => rfl
  | cons t pieces =>
    rw [join_append (List.cons_ne_nil _ _) (List.cons_ne_nil _ _), ← List.append_assoc]
    exact List.getLast?_append_of_ne_nil _ hne

theorem getLast_ofNames (h : ∀ s ∈ names, IsName s) : ∀ u ∈ (ofNames names).getLast?, u ≠ slash := by
  cases names using List.reverseRec with
  | nil =>
    rintro _ ⟨⟩
    decide
  | append_singleton names s =>
    obtain ⟨hne, hslash, -⟩ := h s (by simp)
    rw [ofNames_of_ne_nil (by simp), getLast?_join_concat names hne]
    exact fun u hu he => hslash (he ▸ List.mem_of_mem_getLast? hu)

theorem splitOn_ofNames (h : ∀ s ∈ names, IsName s) :
    splitOn slash (ofNames names) = if names.isEmpty then [ofString "."] else names := by
  cases names with
  | nil => decide
  | cons s rest =>
    rw [ofNames_of_ne_nil (List.cons_ne_nil _ _)]
    exact splitOn_join (List.cons_ne_nil _ _) fun t ht => (h t ht).2.1

theorem foldl_names (h : ∀ s ∈ names, IsName s) (climbs : Bool) (kept : List Text) :
    names.foldl (normalStep climbs) kept = names.reverse ++ kept := by
  induction names generalizing kept with
  | nil => rfl
  | cons s rest ih =>
    obtain ⟨⟨hne, -, hdot, hdots⟩, hrest⟩ := List.forall_mem_cons.mp h
    have hstep : normalStep climbs kept s = s :: kept := by simp [normalStep, hne, hdot, hdots]
    rw [List.foldl_cons, hstep, ih hrest, List.reverse_cons, List.append_assoc]
    rfl

theorem foldl_ofNames (h : ∀ s ∈ names, IsName s) (climbs : Bool) (kept : List Text) :
    (splitOn slash (ofNames names)).foldl (normalStep climbs) kept = names.reverse ++ kept := by
  rw [splitOn_ofNames h]
  cases names with
  | nil => rfl
  | cons s rest => exact foldl_names h climbs kept

theorem normalSegments_ofNames (h : ∀ s ∈ names, IsName s) (climbs : Bool) :
    normalSegments climbs (ofNames names) = names := by
  rw [normalSegments, foldl_ofNames h, List.append_nil, List.reverse_reverse]

theorem join_ofNames (dirs names : List Text) :
    join [slash] (ofNames dirs :: names) = ofNames dirs ++ if names.isEmpty then [] else slash :: ofNames names := by
  cases names with
  | nil => exact (List.append_nil _).symm
  | cons s names =>
    rw [join_cons (List.cons_ne_nil _ _), ← ofNames_of_ne_nil (List.cons_ne_nil _ _)]
    rfl

theorem getLast_join_ofNames (hdirs : ∀ s ∈ dirs, IsName s) (hnames : ∀ s ∈ names, IsName s) :
    (join [slash] (ofNames dirs :: names)).getLast? ≠ some slash := by
  rw [join_ofNames]
  cases names with
  | nil =>
    rw [List.isEmpty_nil, if_pos rfl, List.append_nil]
    exact fun hs => getLast_ofNames hdirs slash hs rfl
  | cons s names =>
    rw [List.isEmpty_cons, if_neg Bool.false_ne_true, List.append_cons,
      List.getLast?_append_of_ne_nil _ (ofNames_ne_nil hnames)]
    exact fun hs => getLast_ofNames hnames slash hs rfl

theorem normalSegments_join_ofNames (hdirs : ∀ s ∈ dirs, IsName s) (hnames : ∀ s ∈ names, IsName s) :
    normalSegments true (join [slash] (ofNames dirs :: names)) = dirs ++ names := by
  rw [join_ofNames, normalSegments]
  cases names with
  | nil => simp [foldl_ofNames hdirs]
  | cons s names =>
    rw [List.isEmpty_cons, if_neg Bool.false_ne_true, splitOn_append, List.foldl_append, foldl_ofNames hdirs,
      foldl_ofNames hnames]
    simp

/-- Joining puts names behind names. -/
theorem joinAll_ofNames (hdirs : ∀ s ∈ dirs, IsName s) (hnames : ∀ s ∈ names, IsName s) :
    joinAll (ofNames dirs :: names) = ofNames (dirs ++ names) := by
  have hall : ∀ s ∈ dirs ++ names, IsName s := List.forall_mem_append.mpr ⟨hdirs, hnames⟩
  have hfilter : (ofNames dirs :: names).filter (fun p => !p.isEmpty) = ofNames dirs :: names :=
    List.filter_eq_self.mpr (List.forall_mem_cons.mpr ⟨by simpa using ofNames_ne_nil hdirs,
      fun s hs => by simpa using (hnames s hs).1⟩)
  have hne : join [slash] (ofNames dirs :: names) ≠ [] := by
    rw [join_ofNames]
    exact List.append_ne_nil_of_left_ne_nil (ofNames_ne_nil hdirs) _
  have habs : isAbsolute (join [slash] (ofNames dirs :: names)) = false := by
    rw [join_ofNames, isAbsolute_append (ofNames_ne_nil hdirs), isAbsolute_ofNames hdirs]
  have hlast := beq_eq_false_iff_ne.mpr (getLast_join_ofNames hdirs hnames)
  have hsegments := normalSegments_join_ofNames hdirs hnames
  rw [joinAll, hfilter]
  simp only [normalize, List.isEmpty_eq_false_iff.mpr hne, habs, hlast, Bool.not_false, hsegments]
  by_cases hnil : dirs ++ names = []
  · rw [hnil]
    decide
  · rw [ofNames_of_ne_nil hnil]
    simp [join_ne_nil hnil hall]

theorem commonLength_append (names rest : List Text) : commonLength names (names ++ rest) = names.length := by
  induction names with
  | nil => cases rest <;> rfl
  | cons s names ih => simp [commonLength, ih]

/-- The way from a directory to what lies below it. -/
theorem relative_ofNames {rest : List Text} (hdirs : ∀ s ∈ dirs, IsName s) (hrest : ∀ s ∈ rest, IsName s) :
    relative (ofNames dirs) (ofNames (dirs ++ rest)) = join [slash] rest := by
  have hall : ∀ s ∈ dirs ++ rest, IsName s := List.forall_mem_append.mpr ⟨hdirs, hrest⟩
  rw [relative, isAbsolute_ofNames hdirs, isAbsolute_ofNames hall, normalSegments_ofNames hdirs,
    normalSegments_ofNames hall, commonLength_append]
  simp

theorem dropSlashes_eq_self {p : Text} (h : ∀ u ∈ p.getLast?, u ≠ slash) : dropSlashes p = p := by
  cases p using List.reverseRec with
  | nil => rfl
  | append_singleton p u => simp [dropSlashes, h u (by simp)]

theorem directory_ofNames {s : Text} (hdirs : ∀ s ∈ dirs, IsName s) (hs : IsName s) :
    directory (ofNames (dirs ++ [s])) = ofNames dirs := by
  have hall : ∀ t ∈ dirs ++ [s], IsName t := List.forall_mem_append.mpr ⟨hdirs, by simpa using hs⟩
  have hpass : ∀ u ∈ s.reverse, (u != slash) = true := fun u hu =>
    bne_iff_ne.mpr fun he => hs.2.1 (he ▸ List.mem_reverse.mp hu)
  have habs := isAbsolute_ofNames hall
  rw [directory, dropSlashes_eq_self (getLast_ofNames hall)]
  cases dirs with
  | nil =>
    have hnone : s.reverse.dropWhile (· != slash) = [] := List.dropWhile_eq_nil_iff.mpr hpass
    have hpath : ofNames ([] ++ [s]) = s := rfl
    rw [hpath] at habs ⊢
    simp only [hnone, habs]
    rfl
  | cons d dirs =>
    have hne : d :: dirs ≠ [] := List.cons_ne_nil d dirs
    have hpath : (ofNames (d :: dirs ++ [s])).reverse = s.reverse ++ slash :: (ofNames (d :: dirs)).reverse := by
      rw [ofNames_of_ne_nil (by simp), ofNames_of_ne_nil hne, join_append hne (List.cons_ne_nil _ _)]
      simp [join]
    have hdrop :
        (ofNames (d :: dirs ++ [s])).reverse.dropWhile (· != slash) = slash :: (ofNames (d :: dirs)).reverse := by
      rw [hpath, List.dropWhile_append_of_pos hpass, List.dropWhile_cons_of_neg (by simp)]
    have habove : (ofNames (d :: dirs)).reverse ≠ [] := by simpa using ofNames_ne_nil hdirs
    have hroot : ofNames (d :: dirs) ≠ "/" := fun he => absurd (isAbsolute_ofNames hdirs) (by rw [he]; decide)
    obtain ⟨u, above, hu⟩ := List.exists_cons_of_ne_nil habove
    simp only [hdrop, hu]
    rw [← hu, List.reverse_reverse, if_neg (by simpa using hroot)]

end Path
end AnnotationIndex
