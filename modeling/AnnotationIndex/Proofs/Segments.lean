import AnnotationIndex.Membership.Scan
import Mathlib.Data.List.Basic

/-!
The segments of paths and of globs. Slashes that follow each other separate once, and a path in a directory tree is its
segments joined again.
-/
namespace AnnotationIndex
open Text

section Pieces
variable {sep : UInt16}

theorem splitOn_ne_nil (sep : UInt16) (t : Text) : splitOn sep t ≠ [] := by
  cases t with
  | nil => exact List.cons_ne_nil _ _
  | cons u t =>
    by_cases hu : u = sep
    · simp [splitOn, hu]
    · cases hs : splitOn sep t <;> simp [splitOn, hu, hs]

theorem splitOn_append (sep : UInt16) (s t : Text) : splitOn sep (s ++ sep :: t) = splitOn sep s ++ splitOn sep t := by
  induction s with
  | nil => simp [splitOn]
  | cons u s ih =>
    by_cases hu : u = sep
    · simp [splitOn, hu, ih]
    · cases hs : splitOn sep s with
      | nil => exact absurd hs (splitOn_ne_nil sep s)
      | cons piece more => simp [splitOn, hu, ih, hs]

theorem splitOn_of_not_mem {t : Text} (h : sep ∉ t) : splitOn sep t = [t] := by
  induction t with
  | nil => rfl
  | cons u t ih =>
    have hu : u ≠ sep := fun he => h (he ▸ List.mem_cons_self)
    simp [splitOn, hu, ih fun hm => h (List.mem_cons_of_mem u hm)]

theorem splitOn_cons {t head : Text} {tail : List Text} (h : splitOn sep t = head :: tail) (u : UInt16) :
    splitOn sep (u :: t) = if u = sep then [] :: head :: tail else (u :: head) :: tail := by
  simp [splitOn, h]

theorem not_mem_of_mem_splitOn {t piece : Text} (h : piece ∈ splitOn sep t) : sep ∉ piece := by
  induction t generalizing piece with
  | nil =>
    rw [List.mem_singleton.mp h]
    exact List.not_mem_nil
  | cons u t ih =>
    obtain ⟨head, tail, hs⟩ := List.exists_cons_of_ne_nil (splitOn_ne_nil sep t)
    rw [splitOn_cons hs] at h
    rw [hs] at ih
    split at h
    · cases List.mem_cons.mp h with
      | inl h => exact h ▸ List.not_mem_nil
      | inr h => exact ih h
    next hu =>
      cases List.mem_cons.mp h with
      | inl h =>
        rw [h, List.mem_cons, not_or]
        exact ⟨fun he => hu he.symm, ih List.mem_cons_self⟩
      | inr h => exact ih (List.mem_cons_of_mem _ h)

/-- Each unit is the separator or lies in a piece. -/
theorem eq_or_mem_piece (sep : UInt16) {t : Text} {u : UInt16} (h : u ∈ t) :
    u = sep ∨ ∃ piece ∈ splitOn sep t, u ∈ piece := by
  induction t with
  | nil => exact absurd h List.not_mem_nil
  | cons v t ih =>
    obtain ⟨head, tail, hs⟩ := List.exists_cons_of_ne_nil (splitOn_ne_nil sep t)
    rw [hs] at ih
    rw [splitOn_cons hs]
    cases List.mem_cons.mp h with
    | inl hu =>
      rw [hu]
      split
      next hv => exact .inl hv
      · exact .inr ⟨v :: head, List.mem_cons_self, List.mem_cons_self⟩
    | inr hu =>
      obtain hu | ⟨piece, hpiece, hu⟩ := ih hu
      · exact .inl hu
      · right
        split
        · exact ⟨piece, List.mem_cons_of_mem _ hpiece, hu⟩
        · cases List.mem_cons.mp hpiece with
          | inl hhead => exact ⟨v :: head, List.mem_cons_self, List.mem_cons_of_mem v (hhead ▸ hu)⟩
          | inr htail => exact ⟨piece, List.mem_cons_of_mem _ htail, hu⟩

section Join
variable {joint s : Text} {ts : List Text}

theorem join_cons (h : ts ≠ []) : join joint (s :: ts) = s ++ (joint ++ join joint ts) := by
  obtain ⟨t, ts, rfl⟩ := List.exists_cons_of_ne_nil h
  rw [join, List.append_assoc]

theorem join_append (h : ts ≠ []) {more : List Text} (hmore : more ≠ []) :
    join joint (ts ++ more) = join joint ts ++ (joint ++ join joint more) := by
  induction ts with
  | nil => exact absurd rfl h
  | cons s ts ih =>
    by_cases hts : ts = []
    · rw [hts]
      exact join_cons hmore
    · rw [List.cons_append, join_cons (List.append_ne_nil_of_left_ne_nil hts more), ih hts, join_cons hts]
      simp only [List.append_assoc]

/-- What is added to the last part is added to the whole. -/
theorem join_concat_append (ts : List Text) (s t : Text) :
    join joint (ts ++ [s ++ t]) = join joint (ts ++ [s]) ++ t := by
  by_cases hts : ts = []
  · rw [hts]
    rfl
  · rw [join_append hts (List.cons_ne_nil _ _), join_append hts (List.cons_ne_nil _ _)]
    simp only [join, List.append_assoc]

end Join

/-- Pieces without the separator are what their join is split into. -/
theorem splitOn_join {pieces : List Text} (hne : pieces ≠ []) (h : ∀ piece ∈ pieces, sep ∉ piece) :
    splitOn sep (join [sep] pieces) = pieces := by
  induction pieces with
  | nil => exact absurd rfl hne
  | cons piece rest ih =>
    obtain ⟨hpiece, hrest⟩ := List.forall_mem_cons.mp h
    by_cases hnil : rest = []
    · rw [hnil]
      exact splitOn_of_not_mem hpiece
    · rw [join_cons hnil, List.singleton_append, splitOn_append, splitOn_of_not_mem hpiece, ih hnil hrest]
      rfl

theorem join_splitOn (sep : UInt16) (t : Text) : join [sep] (splitOn sep t) = t := by
  induction t with
  | nil => rfl
  | cons u t ih =>
    obtain ⟨head, tail, hs⟩ := List.exists_cons_of_ne_nil (splitOn_ne_nil sep t)
    rw [hs] at ih
    rw [splitOn_cons hs]
    split
    next hu => rw [join_cons (List.cons_ne_nil _ _), ih, hu, List.nil_append, List.singleton_append]
    · rw [← ih]
      cases tail with
      | nil => rfl
      | cons s tail => rw [join_cons (List.cons_ne_nil _ _), join_cons (List.cons_ne_nil _ _), List.cons_append]

/- Longer separators. -/

variable {sep' t : Text}

theorem splitOnText_skip (s rest : Text) : splitOnText sep' s.length (s ++ rest) = splitOnText sep' 0 rest := by
  induction s with
  | nil => rfl
  | cons u s ih => rw [List.length_cons, List.cons_append, splitOnText, ih]

theorem splitText_of_not_mem (h : sep ∉ t) : splitText (sep :: sep') t = [t] := by
  rw [splitText]
  induction t with
  | nil => rfl
  | cons u t ih =>
    obtain ⟨hu, ht⟩ := List.ne_and_not_mem_of_not_mem_cons h
    simp [splitOnText, hu, ih ht]

/-- A piece without the first unit of the separator ends where the separator comes first. -/
theorem splitText_append (h : sep ∉ t) (rest : Text) :
    splitText (sep :: sep') (t ++ (sep :: sep' ++ rest)) = t :: splitText (sep :: sep') rest := by
  rw [splitText]
  induction t with
  | nil => simp [splitOnText, splitOnText_skip, splitText]
  | cons u t ih =>
    obtain ⟨hu, ht⟩ := List.ne_and_not_mem_of_not_mem_cons h
    rw [List.cons_append, splitOnText, ih ht]
    simp [hu]

/-- Pieces without the first unit of the separator are what their join is split into. -/
theorem splitText_join {pieces : List Text} (hne : pieces ≠ []) (h : ∀ piece ∈ pieces, sep ∉ piece) :
    splitText (sep :: sep') (join (sep :: sep') pieces) = pieces := by
  induction pieces with
  | nil => exact absurd rfl hne
  | cons piece rest ih =>
    obtain ⟨hpiece, hrest⟩ := List.forall_mem_cons.mp h
    by_cases hnil : rest = []
    · rw [hnil]
      exact splitText_of_not_mem hpiece
    · rw [join_cons hnil, splitText_append hpiece, ih hnil hrest]

end Pieces

namespace Glob
open segments

theorem collapse_cons (s : Text) (rest : List Text) : collapse (s :: rest) = s :: dropEmpty rest := by
  cases rest with
  | nil => rfl
  | cons t rest => rfl

theorem dropEmpty_eq_self {ss : List Text} (h : ∀ s ∈ ss, s ≠ []) : dropEmpty ss = ss := by
  induction ss with
  | nil => rfl
  | cons s rest ih =>
    obtain ⟨hs, hrest⟩ := List.forall_mem_cons.mp h
    cases rest with
    | nil => rfl
    | cons t rest =>
      rw [dropEmpty, ih hrest, if_neg (by simpa using hs)]
      exact List.cons_ne_nil _ _

/-- Segments of a path with none that are empty stay as they are. -/
theorem collapse_eq_self {ss : List Text} (h : ∀ s ∈ ss, s ≠ []) : collapse ss = ss := by
  cases ss with
  | nil => rfl
  | cons s rest => rw [collapse_cons, dropEmpty_eq_self fun t ht => h t (List.mem_cons_of_mem s ht)]

end Glob

/-- A path as a directory tree has it: no segment is empty or made of one or two dots, and no unit is a backslash or
ends a line. -/
structure Path.Named (path : Text) : Prop where
  segments : ∀ s ∈ splitOn slash path, s ≠ [] ∧ Glob.Segment.isDots s = false
  slashes : unit '\\' ∉ path
  lines : ∀ u ∈ path, isLineTerminator u = false

instance (path : Text) : Decidable (Path.Named path) :=
  decidable_of_iff ((∀ s ∈ splitOn Path.slash path, s ≠ [] ∧ Glob.Segment.isDots s = false) ∧ unit '\\' ∉ path ∧
      path.all (fun u => !isLineTerminator u) = true)
    ⟨fun h => ⟨h.1, h.2.1, by simpa using h.2.2⟩, fun h => ⟨h.segments, h.slashes, by simpa using h.lines⟩⟩

namespace Path.Named
variable {path : Text} (h : Named path)
include h

theorem segments_eq : Glob.segments path = splitOn slash path := Glob.collapse_eq_self fun s hs => (h.segments s hs).1

theorem replaceUnit_eq : replaceUnit (unit '\\') slash path = path := by
  rw [replaceUnit]
  conv_rhs => rw [← List.map_id path]
  refine List.map_congr_left fun u hu => if_neg fun he => h.slashes ?_
  rwa [← eq_of_beq he]

/-- The segments of a directory above a path are its first ones, and more follow. -/
theorem of_mem_directories {directory : Text} (hd : directory ∈ Search.directories path) :
    Named directory ∧ ∃ below, below ≠ [] ∧ splitOn slash path = splitOn slash directory ++ below := by
  simp only [Search.directories, List.mem_map, List.mem_range] at hd
  obtain ⟨i, hi, rfl⟩ := hd
  have hlength : i + 1 < (splitOn slash path).length := by
    rw [List.length_dropLast] at hi
    omega
  have htake : (splitOn slash path).dropLast.take (i + 1) = (splitOn slash path).take (i + 1) := by
    rw [List.dropLast_eq_take, List.take_take, Nat.min_eq_left (Nat.le_sub_one_of_lt hlength)]
  have hpieces : ∀ s ∈ (splitOn slash path).take (i + 1), s ∈ splitOn slash path := fun s hs => List.mem_of_mem_take hs
  have hne : (splitOn slash path).take (i + 1) ≠ [] := by
    rw [Ne, List.take_eq_nil_iff, not_or]
    exact ⟨Nat.succ_ne_zero i, splitOn_ne_nil slash path⟩
  have hbelow : (splitOn slash path).drop (i + 1) ≠ [] := by
    rw [Ne, List.drop_eq_nil_iff]
    omega
  have hsplit : splitOn slash (join [slash] ((splitOn slash path).take (i + 1))) = (splitOn slash path).take (i + 1) :=
    splitOn_join hne fun s hs => not_mem_of_mem_splitOn (hpieces s hs)
  have hunits : ∀ u ∈ join [slash] ((splitOn slash path).take (i + 1)), u ∈ path := by
    intro u hu
    rw [← join_splitOn slash path, ← List.take_append_drop (i + 1) (splitOn slash path), join_append hne hbelow]
    exact List.mem_append_left _ hu
  rw [htake]
  refine ⟨⟨fun s hs => ?_, fun hu => h.slashes (hunits _ hu), fun u hu => h.lines u (hunits u hu)⟩, _, hbelow, ?_⟩
  · rw [hsplit] at hs
    exact h.segments s (hpieces s hs)
  · rw [hsplit, List.take_append_drop]

end Path.Named
end AnnotationIndex
