import AnnotationIndex.Text.Order

/-!
The order of texts is a linear order, and a sorted set is the strictly increasing list of its members.
-/
namespace AnnotationIndex.Text

theorem compare_self (s : Text) : compare s s = .eq := by
  induction s with
  | nil => rfl
  | cons u s ih => simp [compare, ih]

theorem eq_of_compare (s t : Text) (h : compare s t = .eq) : s = t := by
  induction s generalizing t with
  | nil =>
    cases t with
    | nil => rfl
    | cons v t => simp [compare] at h
  | cons u s ih =>
    cases t with
    | nil => simp [compare] at h
    | cons v t =>
      simp only [compare] at h
      split at h
      · contradiction
      · split at h
        · contradiction
        · next huv hvu =>
          rw [ih t h, UInt16.le_antisymm (UInt16.not_lt.mp hvu) (UInt16.not_lt.mp huv)]

theorem compare_swap (s t : Text) : (compare s t).swap = compare t s := by
  induction s generalizing t with
  | nil => cases t <;> rfl
  | cons u s ih =>
    cases t with
    | nil => rfl
    | cons v t =>
      simp only [compare]
      by_cases huv : u < v
      · simp [huv, UInt16.lt_asymm huv]
      · by_cases hvu : v < u
        · simp [huv, hvu]
        · simp [huv, hvu, ih t]

theorem compare_trans (s t r : Text) (hst : compare s t ≠ .gt) (htr : compare t r ≠ .gt) :
    compare s r ≠ .gt := by
  induction s generalizing t r with
  | nil => cases r <;> simp [compare]
  | cons u s ih =>
    cases t with
    | nil => simp [compare] at hst
    | cons v t =>
      cases r with
      | nil => simp [compare] at htr
      | cons w r =>
        simp only [compare] at hst htr ⊢
        by_cases huv : u < v
        · by_cases hvw : v < w
          · simp [UInt16.lt_trans huv hvw]
          · have hwv : ¬ w < v := by intro h; simp [hvw, h] at htr
            have : u < w := UInt16.lt_of_lt_of_le huv (UInt16.not_lt.mp hwv)
            simp [this]
        · have hvu : ¬ v < u := by intro h; simp [huv, h] at hst
          have he : u = v := UInt16.le_antisymm (UInt16.not_lt.mp hvu) (UInt16.not_lt.mp huv)
          subst he
          by_cases huw : u < w
          · simp [huw]
          · have hwu : ¬ w < u := by intro h; simp [huw, h] at htr
            simp only [huv, huw, hwu, if_false] at hst htr ⊢
            exact ih t r hst htr

theorem le_trans (s t r : Text) (hst : le s t = true) (htr : le t r = true) : le s r = true := by
  simp only [le, bne_iff_ne] at *
  exact compare_trans s t r hst htr

theorem le_total (s t : Text) : (le s t || le t s) = true := by
  simp only [le, Bool.or_eq_true, bne_iff_ne]
  rw [← compare_swap s t]
  cases compare s t <;> simp

theorem le_antisymm {s t : Text} (hst : le s t = true) (hts : le t s = true) : s = t := by
  simp only [le, bne_iff_ne] at *
  rw [← compare_swap s t] at hts
  apply eq_of_compare
  cases h : compare s t <;> simp_all

theorem lt_iff {s t : Text} : lt s t = true ↔ le s t = true ∧ s ≠ t := by
  simp only [lt, le, beq_iff_eq, bne_iff_ne]
  constructor
  · intro h
    refine ⟨by simp [h], ?_⟩
    rintro rfl
    simp [compare_self] at h
  · rintro ⟨hle, hne⟩
    cases h : compare s t with
    | lt => rfl
    | eq => exact absurd (eq_of_compare s t h) hne
    | gt => exact absurd h hle

/-- Texts that are there once each are sorted strictly. -/
theorem pairwise_mergeSort_of_nodup {ts : List Text} (h : ts.Nodup) :
    (ts.mergeSort le).Pairwise fun s t => lt s t = true :=
  (List.pairwise_mergeSort le_trans le_total ts).imp₂ (fun _ _ hle hne => lt_iff.mpr ⟨hle, hne⟩)
    ((List.mergeSort_perm ts _).nodup_iff.mpr h)

section SortedSets

theorem sublist_dedupNeighbours (ts : List Text) : (dedupNeighbours ts).Sublist ts := by
  fun_induction dedupNeighbours ts with
  | case1 => exact List.Sublist.refl _
  | case2 t => exact List.Sublist.refl _
  | case3 s t rest h ih => exact ih.cons s
  | case4 s t rest h ih => exact ih.cons_cons s

theorem mem_dedupNeighbours {ts : List Text} {x : Text} : x ∈ dedupNeighbours ts ↔ x ∈ ts := by
  refine ⟨(sublist_dedupNeighbours ts).mem, ?_⟩
  fun_induction dedupNeighbours ts with
  | case1 => exact id
  | case2 t => exact id
  | case3 s t rest h ih =>
    intro hx
    cases List.mem_cons.mp hx with
    | inl hs => exact ih (hs.trans (eq_of_beq h) ▸ List.mem_cons_self)
    | inr hx => exact ih hx
  | case4 s t rest h ih =>
    intro hx
    cases List.mem_cons.mp hx with
    | inl hs => exact hs ▸ List.mem_cons_self
    | inr hx => exact List.mem_cons_of_mem s (ih hx)

theorem pairwise_dedupNeighbours {ts : List Text} (h : ts.Pairwise fun s t => le s t = true) :
    (dedupNeighbours ts).Pairwise fun s t => lt s t = true := by
  fun_induction dedupNeighbours ts with
  | case1 => exact List.Pairwise.nil
  | case2 t => exact List.pairwise_singleton _ _
  | case3 s t rest _ ih => exact ih h.of_cons
  | case4 s t rest hne ih =>
    refine (ih h.of_cons).cons fun x hx => lt_iff.mpr ⟨?_, ?_⟩
    · exact List.rel_of_pairwise_cons h (mem_dedupNeighbours.mp hx)
    · -- the neighbour is above `s`, and `x` is not below the neighbour
      rintro rfl
      have hst := List.rel_of_pairwise_cons h (List.mem_cons_self (a := t))
      have hts : le t s = true := by
        cases List.mem_cons.mp (mem_dedupNeighbours.mp hx) with
        | inl he => exact he ▸ hst
        | inr hx => exact List.rel_of_pairwise_cons h.of_cons hx
      exact hne (beq_iff_eq.mpr (le_antisymm hst hts))

theorem mem_sortedSet {ts : List Text} {x : Text} : x ∈ sortedSet ts ↔ x ∈ ts := by
  rw [sortedSet, mem_dedupNeighbours, List.mem_mergeSort]

theorem pairwise_sortedSet (ts : List Text) : (sortedSet ts).Pairwise fun s t => lt s t = true :=
  pairwise_dedupNeighbours (List.pairwise_mergeSort le_trans le_total ts)

theorem nodup_sortedSet (ts : List Text) : (sortedSet ts).Nodup :=
  (pairwise_sortedSet ts).imp fun h => (lt_iff.mp h).2

/-- A strictly increasing list is determined by its members. -/
theorem eq_of_mem_iff {s t : List Text} (hs : s.Pairwise fun a b => lt a b = true)
    (ht : t.Pairwise fun a b => lt a b = true) (h : ∀ x, x ∈ s ↔ x ∈ t) : s = t := by
  have nodup : ∀ {ts : List Text}, ts.Pairwise (fun a b => lt a b = true) → ts.Nodup :=
    fun hp => hp.imp fun h => (lt_iff.mp h).2
  have hp : s.Perm t := (List.perm_ext_iff_of_nodup (nodup hs) (nodup ht)).mpr h
  exact hp.eq_of_pairwise (fun a b _ _ => le_antisymm) (hs.imp fun h => (lt_iff.mp h).1)
    (ht.imp fun h => (lt_iff.mp h).1)

theorem sortedSet_congr {s t : List Text} (h : ∀ x, x ∈ s ↔ x ∈ t) : sortedSet s = sortedSet t :=
  eq_of_mem_iff (pairwise_sortedSet s) (pairwise_sortedSet t) fun x => by
    rw [mem_sortedSet, mem_sortedSet, h x]

end SortedSets
end AnnotationIndex.Text
