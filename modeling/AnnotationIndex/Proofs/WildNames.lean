import AnnotationIndex.Membership.GlobReader
import AnnotationIndex.Proofs.PatternReading
import Mathlib.Data.List.Chain
import Mathlib.Data.List.Infix
import Mathlib.Data.List.TakeWhile

/-!
Names with wildcards, and nothing else that globs have signs for: `*` stands for any units and `?` for one. A
segment of a glob that is such a name matches the names that it stands for.
-/
namespace AnnotationIndex
open Text

namespace Glob
variable {s t : Text} {u v : UInt16}

def star : UInt16 := unit '*'
def mark : UInt16 := unit '?'

def isPlain (u : UInt16) : Bool := u != 0 && !isLineTerminator u && !(ofString "/\\*?[]\x7b\x7d()|\"!#,").elem u

def fits : Text → Text → Bool
  | [], t => t.isEmpty
  | u :: s, t =>
    if u = star then t.tails.any (fits s)
    else
      match t with
      | [] => false
      | v :: t => (u == mark || u == v) && fits s t

def isWild (u : UInt16) : Bool := isPlain u || u == star || u == mark

structure WildName (s : Text) : Prop where
  ne_nil : s ≠ []
  not_dots : Segment.isDots s = false
  units : ∀ u ∈ s, isWild u = true
  stars : s.IsChain fun u v => v = star → u ≠ star ∧ u ≠ Path.dot

instance (s : Text) : Decidable (WildName s) :=
  decidable_of_iff (s ≠ [] ∧ Segment.isDots s = false ∧ s.all isWild = true ∧
      s.IsChain fun u v => v = star → u ≠ star ∧ u ≠ Path.dot)
    ⟨fun h => ⟨h.1, h.2.1, List.all_eq_true.mp h.2.2.1, h.2.2.2⟩,
      fun h => ⟨h.ne_nil, h.not_dots, List.all_eq_true.mpr h.units, h.stars⟩⟩

section Fits

theorem fits_star (s t : Text) : fits (star :: s) t = t.tails.any (fits s) := if_pos rfl

theorem fits_nil_right (h : u ≠ star) (s : Text) : fits (u :: s) [] = false := by
  rw [fits, if_neg h]

theorem fits_cons (h : u ≠ star) (s : Text) (v : UInt16) (t : Text) :
    fits (u :: s) (v :: t) = ((u == mark || u == v) && fits s t) := by
  rw [fits, if_neg h]

theorem ne_of_isPlain {c : Char} (h : isPlain u = true) (hc : isPlain (unit c) = false) : u ≠ unit c := by
  rintro rfl
  exact absurd (h.symm.trans hc) (by simp)

theorem fits_of_plain (h : ∀ u ∈ s, isPlain u = true) (t : Text) : fits s t = (t == s) := by
  induction s generalizing t with
  | nil => cases t <;> rfl
  | cons u s ih =>
    obtain ⟨hu, hs⟩ := List.forall_mem_cons.mp h
    have hstar : u ≠ star := ne_of_isPlain hu (by decide)
    have hmark : (u == mark) = false := beq_false_of_ne (ne_of_isPlain hu (by decide))
    cases t with
    | nil => exact fits_nil_right hstar s
    | cons v t => rw [fits_cons hstar, ih hs, hmark, Bool.false_or, List.cons_beq_cons, Bool.beq_comm]

/-- A star before plain units stands for whatever comes before them. -/
theorem fits_star_of_plain (h : ∀ u ∈ s, isPlain u = true) (t : Text) : fits (star :: s) t = endsWith t s := by
  rw [fits_star, Bool.eq_iff_iff, List.any_eq_true, endsWith, List.isSuffixOf_iff_suffix, ← List.mem_tails]
  constructor
  · rintro ⟨w, hw, hfits⟩
    rw [fits_of_plain h] at hfits
    rwa [← eq_of_beq hfits]
  · exact fun hs => ⟨s, hs, by rw [fits_of_plain h, beq_self_eq_true]⟩

/-- Question marks before plain units stand for as many units. -/
theorem fits_marks_of_plain (h : ∀ u ∈ s, isPlain u = true) (k : Nat) (t : Text) :
    fits (List.replicate k mark ++ s) t = (t.length == k + s.length && endsWith t s) := by
  induction k generalizing t with
  | zero =>
    rw [List.replicate_zero, List.nil_append, fits_of_plain h, Nat.zero_add, Bool.eq_iff_iff, beq_iff_eq,
      Bool.and_eq_true, beq_iff_eq, endsWith, List.isSuffixOf_iff_suffix]
    exact ⟨fun he => he ▸ ⟨rfl, List.suffix_rfl⟩, fun ⟨hlength, hs⟩ => (hs.eq_of_length hlength.symm).symm⟩
  | succ k ih =>
    have hstar : mark ≠ star := by decide
    rw [List.replicate_succ, List.cons_append]
    cases t with
    | nil => rw [fits_nil_right hstar, List.length_nil, beq_false_of_ne (by omega), Bool.false_and]
    | cons v t =>
      rw [fits_cons hstar, beq_self_eq_true, Bool.true_or, Bool.true_and, ih, Bool.eq_iff_iff, Bool.and_eq_true,
        Bool.and_eq_true, beq_iff_eq, beq_iff_eq, endsWith, endsWith, List.isSuffixOf_iff_suffix,
        List.isSuffixOf_iff_suffix, List.suffix_cons_iff, List.length_cons]
      constructor
      · exact fun ⟨hlength, hs⟩ => ⟨by omega, .inr hs⟩
      · rintro ⟨hlength, rfl | hs⟩
        · rw [List.length_cons] at hlength
          omega
        · exact ⟨by omega, hs⟩

end Fits

theorem isLineTerminator_of_isWild (h : isWild u = true) : isLineTerminator u = false := by
  simp only [isWild, isPlain, Bool.or_eq_true, Bool.and_eq_true, beq_iff_eq, Bool.not_eq_true'] at h
  obtain (⟨⟨_, hline⟩, _⟩ | rfl) | rfl := h
  · exact hline
  · decide
  · decide

theorem ne_of_isWild {c : Char} (h : isWild u = true) (hc : isWild (unit c) = false) : u ≠ unit c := by
  rintro rfl
  exact absurd (h.symm.trans hc) (by simp)

section Parts

theorem piece_of_isWild (hu : isWild u = true) (hs : ∀ v ∈ s, isWild v = true) :
    SegmentPart.piece false (u :: s) = .plain [u] s := by
  have hescape : (u == unit '\\') = false := beq_false_of_ne (ne_of_isWild hu (by decide))
  have hbracket : (u == unit '[') = false := beq_false_of_ne (ne_of_isWild hu (by decide))
  cases s with
  | nil => rfl
  | cons v s =>
    have hparen : (v == unit '(') = false := beq_false_of_ne (ne_of_isWild (hs v List.mem_cons_self) (by decide))
    simp [SegmentPart.piece, hescape, hbracket, hparen]

/-- A name with wildcards has no groups. -/
theorem partsFrom_of_isWild (hs : ∀ u ∈ s, isWild u = true) {n : Nat} (hn : s.length < n) (held : Text) :
    SegmentPart.partsFrom n held s = SegmentPart.addText (held ++ s) [] := by
  induction n generalizing s held with
  | zero => exact absurd hn (Nat.not_lt_zero _)
  | succ n ih =>
    rw [SegmentPart.partsFrom]
    cases s with
    | nil => rw [List.append_nil, List.isEmpty_nil, if_pos rfl]
    | cons u s =>
      obtain ⟨hu, hs⟩ := List.forall_mem_cons.mp hs
      rw [List.length_cons] at hn
      rw [List.isEmpty_cons, if_neg Bool.false_ne_true, piece_of_isWild hu hs]
      dsimp only
      rw [ih hs (by omega), List.append_assoc, List.singleton_append]

theorem literalFrom_of_isWild (hs : ∀ u ∈ s, isWild u = true) {n : Nat} (hn : s.length ≤ n) :
    Segment.literalFrom n s = if s.all isPlain then some s else none := by
  induction s generalizing n with
  | nil => cases n <;> simp [Segment.literalFrom]
  | cons u s ih =>
    obtain ⟨hu, hs⟩ := List.forall_mem_cons.mp hs
    obtain ⟨n, rfl⟩ : ∃ m, n = m + 1 := ⟨n - 1, by rw [List.length_cons] at hn; omega⟩
    have hescape : (u == unit '\\') = false := beq_false_of_ne (ne_of_isWild hu (by decide))
    have hbracket : (u == unit '[') = false := beq_false_of_ne (ne_of_isWild hu (by decide))
    by_cases hplain : isPlain u = true
    · have hstar : (u == unit '*') = false := beq_false_of_ne (ne_of_isPlain hplain (by decide))
      have hmark : (u == unit '?') = false := beq_false_of_ne (ne_of_isPlain hplain (by decide))
      rw [List.length_cons] at hn
      simp only [Segment.literalFrom, hescape, hbracket, hstar, hmark, ih hs (Nat.le_of_succ_le_succ hn), List.all_cons,
        hplain]
      cases hall : s.all isPlain <;> simp
    · have hwild : (u == unit '*' || u == unit '?') = true := by
        simpa [isWild, hplain, star, mark] using hu
      simp [Segment.literalFrom, hescape, hwild, hplain]

end Parts

section Patterns
open Pattern

theorem wildcardsFrom_star (n : Nat) (h : s.head? ≠ some star) :
    wildcardsFrom (n + 1) false (star :: s) = .run anyUnit ++ wildcardsFrom n false s := by
  have hrest : s.dropWhile (· == unit '*') = s := by
    cases s with
    | nil => rfl
    | cons v s =>
      have hv : v ≠ star := fun hv => h (congrArg some hv)
      exact List.dropWhile_cons_of_neg (by simpa [star] using hv)
  have hescape : (star == unit '\\') = false := by decide
  have hstar : (star == unit '*') = true := by decide
  simp only [wildcardsFrom, hescape, hstar, hrest, Bool.false_eq_true, if_false, if_true]
  rfl

def stands (u v : UInt16) : Bool := if u = mark then anyUnit v else v == u

theorem wildcardsFrom_cons (n : Nat) (hu : isWild u = true) (hstar : u ≠ star) (s : Text) :
    wildcardsFrom (n + 1) false (u :: s) = .one (stands u) ++ wildcardsFrom n false s := by
  have hescape : (u == unit '\\') = false := beq_false_of_ne (ne_of_isWild hu (by decide))
  have hbracket : (u == unit '[') = false := beq_false_of_ne (ne_of_isWild hu (by decide))
  have hnone : (u == unit '*') = false := beq_false_of_ne hstar
  by_cases hmark : u = mark
  · have hone : stands u = anyUnit := funext fun _ => if_pos hmark
    have hmark : (u == unit '?') = true := beq_iff_eq.mpr hmark
    simp only [wildcardsFrom, hescape, hnone, hmark, hone, Bool.false_eq_true, if_false, if_true]
    rfl
  · have hone : stands u = (· == u) := funext fun _ => if_neg hmark
    have hother : (u == unit '?') = false := beq_false_of_ne hmark
    simp only [wildcardsFrom, hescape, hnone, hother, hbracket, hone, Bool.false_eq_true, if_false]
    rfl

theorem stands_iff (hu : isWild u = true) (v : UInt16) :
    stands u v = true ↔ (u == mark || u == v) = true ∧ v ≠ Path.slash := by
  by_cases hmark : u = mark
  · simp [stands, hmark, anyUnit]
  · have hslash : u ≠ Path.slash := ne_of_isWild hu (by decide)
    simp only [stands, hmark, if_false, beq_iff_eq, Bool.or_eq_true, false_or]
    exact ⟨fun he => ⟨he.symm, he ▸ hslash⟩, fun ⟨he, _⟩ => he.symm⟩

/-- The pattern of a name with wildcards reads what the name stands for, as long as no slash is in it. -/
theorem spells_wildcardsFrom (hs : ∀ u ∈ s, isWild u = true)
    (hstars : s.IsChain fun u v => v = star → u ≠ star ∧ u ≠ Path.dot) {n : Nat} (hn : s.length ≤ n) :
    (wildcardsFrom n false s).Spells fun t m => (fits s t = true ∧ Path.slash ∉ t) ∧ m = [] := by
  induction s generalizing n with
  | nil =>
    have hempty : wildcardsFrom n false [] = .empty := by cases n <;> rfl
    rw [hempty]
    refine spells_empty.congr fun t m => and_congr_left' ⟨?_, fun ⟨ht, _⟩ => List.isEmpty_iff.mp ht⟩
    rintro rfl
    exact ⟨rfl, List.not_mem_nil⟩
  | cons u s ih =>
    obtain ⟨hu, hs⟩ := List.forall_mem_cons.mp hs
    obtain ⟨hhead, hstars⟩ := List.isChain_cons.mp hstars
    obtain ⟨n, rfl⟩ : ∃ m, n = m + 1 := ⟨n - 1, by rw [List.length_cons] at hn; omega⟩
    rw [List.length_cons, Nat.add_le_add_iff_right] at hn
    have ih := ih hs hstars hn
    by_cases hstar : u = star
    · have hnext : s.head? ≠ some star := fun hv => (hhead star hv rfl).1 hstar
      rw [hstar, wildcardsFrom_star n hnext]
      refine ((spells_run anyUnit).seq ih).congr fun t m => ⟨?_, ?_⟩
      · rintro ⟨w, _, t, _, ⟨hw, rfl⟩, ⟨⟨hfits, hslash⟩, rfl⟩, rfl, rfl⟩
        rw [fits_star, List.any_eq_true, List.mem_append, not_or]
        refine ⟨⟨⟨t, (List.mem_tails _ _).mpr (List.suffix_append w t), hfits⟩, fun hmem => ?_, hslash⟩, rfl⟩
        exact absurd (hw _ hmem) (by decide)
      · rintro ⟨⟨hfits, hslash⟩, rfl⟩
        rw [fits_star, List.any_eq_true] at hfits
        obtain ⟨w, hw, hfits⟩ := hfits
        obtain ⟨front, rfl⟩ := (List.mem_tails _ _).mp hw
        rw [List.mem_append, not_or] at hslash
        refine ⟨front, [], w, [], ⟨fun v hv => ?_, rfl⟩, ⟨⟨hfits, hslash.2⟩, rfl⟩, rfl, rfl⟩
        exact bne_iff_ne.mpr fun he => hslash.1 (he ▸ hv)
    · rw [wildcardsFrom_cons n hu hstar]
      refine ((spells_one (stands u)).seq ih).congr fun t m => ⟨?_, ?_⟩
      · rintro ⟨_, _, t, _, ⟨⟨v, hv, rfl⟩, rfl⟩, ⟨⟨hfits, hslash⟩, rfl⟩, rfl, rfl⟩
        obtain ⟨hv, hne⟩ := (stands_iff hu v).mp hv
        rw [List.singleton_append, fits_cons hstar, hv, Bool.true_and, List.mem_cons, not_or]
        exact ⟨⟨hfits, hne.symm, hslash⟩, rfl⟩
      · rintro ⟨⟨hfits, hslash⟩, rfl⟩
        cases t with
        | nil => exact absurd hfits (by rw [fits_nil_right hstar]; exact Bool.false_ne_true)
        | cons v t =>
          rw [fits_cons hstar, Bool.and_eq_true] at hfits
          rw [List.mem_cons, not_or] at hslash
          have hv : stands u v = true := (stands_iff hu v).mpr ⟨hfits.1, Ne.symm hslash.1⟩
          exact ⟨[v], [], t, [], ⟨⟨v, hv, rfl⟩, rfl⟩, ⟨⟨hfits.2, hslash.2⟩, rfl⟩, rfl, rfl⟩

theorem starts_dots (t : Text) : dots.starts t = Segment.isDots t := by
  have hone : ofString "." = [unit '.'] := rfl
  have htwo : ofString ".." = [unit '.', unit '.'] := rfl
  match t with
  | [] => rfl
  | [u] =>
    by_cases hu : u = unit '.' <;>
      simp [starts, start, matchAt, dots, Pattern.matchFrom, Pattern.opt, Segment.isDots, hu, hone, htwo]
  | u :: v :: rest =>
    by_cases hu : u = unit '.' <;> by_cases hv : v = unit '.' <;> cases rest <;>
      simp [starts, start, matchAt, dots, Pattern.matchFrom, Pattern.opt, Segment.isDots, hu, hv, hone, htwo]

/-- What is no dots is not kept out for being dots. -/
theorem starts_notDots_seq (parts : List SegmentPart) (p : Pattern) (hdots : Segment.isDots t = false) :
    (Pattern.seq (notDots parts) p).starts t = p.starts t := by
  have hnone : dots.matchFrom ⟨[], t⟩ [] (fun c m => some (c, m)) = none := by
    have hstarts := starts_dots t
    rwa [hdots, starts, start, matchAt, Option.isSome_map, Option.isSome_eq_false_iff, Option.isNone_iff_eq_none]
      at hstarts
  have hcases : notDots parts = .notAhead dots ∨ notDots parts = .empty := by
    unfold notDots
    split
    · split
      · exact .inl rfl
      · exact .inr rfl
    · exact .inr rfl
  obtain hpattern | hpattern := hcases
  · simp only [hpattern, starts, start, matchAt, Pattern.matchFrom, hnone]
  · simp only [hpattern, starts, start, matchAt, Pattern.matchFrom]

end Patterns

section Segments

theorem isPlain_of_isWild (hs : ∀ u ∈ s, isWild u = true) (h : Segment.isPlain s = true) :
    ∀ u ∈ s, isPlain u = true := by
  intro u hu
  have hwild := hs u hu
  have hplain := List.all_eq_true.mp h u hu
  simp only [isWild, Bool.or_eq_true, beq_iff_eq] at hwild
  obtain (hu | rfl) | rfl := hwild
  · exact hu
  · exact absurd hplain (by decide)
  · exact absurd hplain (by decide)

theorem isStars_iff : isStars s = true ↔ s ≠ [] ∧ ∀ u ∈ s, u = star := by
  simp [isStars, star]

theorem exists_star_of_isStars (h : isStars s = true) : ∃ rest, s = star :: rest := by
  obtain ⟨hne, hall⟩ := isStars_iff.mp h
  obtain ⟨u, rest, rfl⟩ := List.exists_cons_of_ne_nil hne
  exact ⟨rest, by rw [hall u List.mem_cons_self]⟩

namespace WildName
variable (h : WildName s)
include h

theorem not_two_stars (front rest : Text) : s ≠ front ++ star :: star :: rest := by
  rintro rfl
  have hchain := (List.isChain_append.mp h.stars).2.1
  exact ((List.isChain_cons_cons.mp hchain).1 rfl).1 rfl

theorem not_star_after_dot (front rest : Text) : s ≠ front ++ Path.dot :: star :: rest := by
  rintro rfl
  have hchain := (List.isChain_append.mp h.stars).2.1
  exact ((List.isChain_cons_cons.mp hchain).1 rfl).2 rfl

theorem eq_star_of_isStars (hall : isStars s = true) : s = [star] := by
  obtain ⟨-, hall⟩ := isStars_iff.mp hall
  match s, h.ne_nil with
  | [u], _ => rw [hall u List.mem_cons_self]
  | u :: v :: rest, _ =>
    obtain ⟨hu, hrest⟩ := List.forall_mem_cons.mp hall
    exact absurd (by rw [hu, hrest v List.mem_cons_self]; rfl) (h.not_two_stars [] rest)

/-- A name that starts with a star has one star there. -/
theorem eq_star_cons (hlength : (Segment.stars s).length < s.length) : s = star :: Segment.stars s := by
  cases s with
  | nil => exact absurd hlength (Nat.lt_irrefl _)
  | cons u s =>
    by_cases hu : u = star
    · have hrest : s.dropWhile (· == unit '*') = s := by
        cases s with
        | nil => rfl
        | cons v s =>
          have hv : v ≠ star := fun hv => h.not_two_stars [] _ (by rw [hu, hv]; rfl)
          exact List.dropWhile_cons_of_neg (by simpa [star] using hv)
      rw [hu, Segment.stars, List.dropWhile_cons_of_pos (by rfl), hrest]
    · have hsame : Segment.stars (u :: s) = u :: s := List.dropWhile_cons_of_neg (by simpa [star] using hu)
      exact absurd hlength (by rw [hsame]; exact Nat.lt_irrefl _)

theorem fits_suffix (hlength : (Segment.stars s).length < s.length) (hplain : Segment.isPlain (Segment.stars s) = true)
    (t : Text) : fits s t = endsWith t (Segment.stars s) := by
  have hs := h.eq_star_cons hlength
  have hplain := isPlain_of_isWild (fun u hu => h.units u (hs ▸ List.mem_cons_of_mem _ hu)) hplain
  conv_lhs => rw [hs]
  exact fits_star_of_plain hplain t

theorem fits_sized (hplain : Segment.isPlain (s.dropWhile (· == unit '?')) = true) (t : Text) :
    fits s t = (t.length == s.length && endsWith t (s.dropWhile (· == unit '?'))) := by
  have hmarks : s.takeWhile (· == unit '?') = List.replicate (s.takeWhile (· == unit '?')).length mark :=
    List.eq_replicate_iff.mpr ⟨rfl, fun _ hu => beq_iff_eq.mp (List.mem_takeWhile_imp (p := (· == unit '?')) hu)⟩
  have hs : s = List.replicate (s.takeWhile (· == unit '?')).length mark ++ s.dropWhile (· == unit '?') := by
    rw [← hmarks, List.takeWhile_append_dropWhile]
  have hlength : s.length = (s.takeWhile (· == unit '?')).length + (s.dropWhile (· == unit '?')).length := by
    rw [← List.length_append, List.takeWhile_append_dropWhile]
  have hplain := isPlain_of_isWild (fun u hu => h.units u (hs ▸ List.mem_append_right _ hu)) hplain
  conv_lhs => rw [hs]
  rw [fits_marks_of_plain hplain, ← hlength]

end WildName

/-- The general form of the segment of a name with wildcards. -/
theorem isMatch_general (h : WildName s) (hall : ¬isStars s = true) (hdots : Segment.isDots t = false)
    (hslash : Path.slash ∉ t) :
    Segment.isMatch (match Segment.literal? (SegmentPart.ofText s) with
      | some t => .literal t
      | none => .pattern (.seq (notDots (SegmentPart.ofText s))
          (.seq (sequencePattern true true .empty true (SegmentPart.ofText s)) .atEnd))) t = fits s t := by
  have hparts : SegmentPart.ofText s = [.text s] := by
    rw [SegmentPart.ofText, partsFrom_of_isWild h.units (Nat.lt_succ_self _), SegmentPart.addText,
      if_neg (by simpa using h.ne_nil)]
    rfl
  rw [hparts, Segment.literal?, literalFrom_of_isWild h.units (Nat.le_refl _)]
  by_cases hplain : s.all isPlain = true
  · rw [if_pos hplain, fits_of_plain (List.all_eq_true.mp hplain)]
    rfl
  · rw [if_neg hplain]
    have hstars : isStars s = false := Bool.eq_false_iff.mpr hall
    have hpattern :
        sequencePattern true true .empty true [.text s] = wildcardsFrom s.length false s ++ Pattern.empty := by
      rw [sequencePattern, sequencePattern, wildcards, hstars]
      rfl
    have hspells :=
      ((spells_wildcardsFrom h.units h.stars (Nat.le_refl _)).seq Pattern.spells_empty).starts_atEnd_iff (t := t)
    dsimp only [Segment.isMatch]
    rw [starts_notDots_seq _ _ hdots, hpattern, Bool.eq_iff_iff]
    refine Iff.trans hspells ⟨?_, fun hfits => ⟨[], t, [], [], [], ⟨⟨hfits, hslash⟩, rfl⟩, ⟨rfl, rfl⟩,
      (List.append_nil t).symm, rfl⟩⟩
    rintro ⟨_, w, _, _, _, ⟨⟨hfits, _⟩, rfl⟩, ⟨rfl, rfl⟩, rfl, rfl⟩
    rwa [List.append_nil]

/-- The segment that a name with wildcards spells matches the names that it stands for. -/
theorem isMatch_ofText_of_wild (h : WildName s) (ht : t ≠ []) (hdots : Segment.isDots t = false)
    (hslash : Path.slash ∉ t) : (Segment.ofText s).isMatch t = fits s t := by
  have hany : ¬(s == ofString "**") = true := by
    rw [beq_iff_eq]
    rintro rfl
    exact absurd h.stars (by decide)
  rw [Segment.ofText, if_neg hany, if_neg (by simpa using h.ne_nil)]
  dsimp only
  split
  next hall =>
    have hempty : t.isEmpty = false := by simpa using ht
    rw [h.eq_star_of_isStars hall, fits_star, Segment.isMatch, hempty, hdots]
    exact (List.any_eq_true.mpr ⟨[], (List.mem_tails _ _).mpr List.nil_suffix, rfl⟩).symm
  next hall =>
  split
  next hsuffix =>
    rw [Bool.and_eq_true, decide_eq_true_eq] at hsuffix
    exact (h.fits_suffix hsuffix.1 hsuffix.2 t).symm
  next =>
  split
  next hsized =>
    rw [Bool.and_eq_true, decide_eq_true_eq] at hsized
    rw [h.fits_sized hsized.2, Segment.isMatch, hdots, Bool.not_false, Bool.and_true]
  next =>
  split
  next hdot =>
    -- no star follows a dot
    rw [Bool.and_eq_true, Bool.and_eq_true, decide_eq_true_eq, beq_iff_eq] at hdot
    obtain ⟨⟨hlength, hhead⟩, hrest⟩ := hdot
    obtain ⟨after, hafter⟩ := List.head?_eq_some_iff.mp hhead
    rw [hafter, List.drop_one, List.tail_cons] at hrest
    obtain ⟨rest, rfl⟩ := exists_star_of_isStars hrest
    have hs : s = [star] ++ Path.dot :: star :: rest := (h.eq_star_cons hlength).trans (congrArg (star :: ·) hafter)
    exact absurd hs (h.not_star_after_dot _ _)
  next =>
  split
  next hhidden =>
    rw [Bool.and_eq_true, beq_iff_eq] at hhidden
    obtain ⟨after, rfl⟩ := List.head?_eq_some_iff.mp hhidden.1
    obtain ⟨rest, rfl⟩ := exists_star_of_isStars hhidden.2
    exact absurd rfl (h.not_star_after_dot [] _)
  next => exact isMatch_general h hall hdots hslash

end Segments

end Glob
end AnnotationIndex
