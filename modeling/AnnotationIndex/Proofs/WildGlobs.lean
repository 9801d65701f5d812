import AnnotationIndex.Proofs.Segments
import AnnotationIndex.Proofs.WildNames

/-!
Globs whose names have no signs but wildcards, and what such a glob covers: `**` stands for any directories, and at
the end for whatever lies below. The filter of a project reads them so, and so does everything that reads globs as
it is documented.
-/
namespace AnnotationIndex
open Text

namespace Glob
variable {s t path : Text} {ss ts : List Text}

def anyNames : Text := ofString "**"

def coversNames : List Text → List Text → Bool
  | [], ts => ts.isEmpty
  | s :: ss, ts =>
    if s = anyNames then if ss.isEmpty then !ts.isEmpty else ts.tails.any (coversNames ss)
    else
      match ts with
      | [] => false
      | t :: ts => fits s t && coversNames ss ts

def covers (t path : Text) : Bool := coversNames (splitOn Path.slash t) (splitOn Path.slash path)

/-- Whether a path is the directory whose contents a glob covers: the glob without its last `**` covers the path. -/
def coversInside (t path : Text) : Bool :=
  (splitOn Path.slash t).getLast? == some anyNames &&
    coversNames (splitOn Path.slash t).dropLast (splitOn Path.slash path)

/-- The names of a glob: `**`, never twice in a row, and names with wildcards. The length is what every reader takes. -/
structure Wild (t : Text) : Prop where
  names : ∀ s ∈ splitOn Path.slash t, s = anyNames ∨ WildName s
  apart : (splitOn Path.slash t).IsChain fun s s' => s = anyNames → s' ≠ anyNames
  short : t.length ≤ 65536

instance (t : Text) : Decidable (Wild t) :=
  decidable_of_iff ((∀ s ∈ splitOn Path.slash t, s = anyNames ∨ WildName s) ∧
      ((splitOn Path.slash t).IsChain fun s s' => s = anyNames → s' ≠ anyNames) ∧ t.length ≤ 65536)
    ⟨fun h => ⟨h.1, h.2.1, h.2.2⟩, fun h => ⟨h.names, h.apart, h.short⟩⟩

section Covers

theorem WildName.ne_anyNames (h : WildName s) : s ≠ anyNames := by
  rintro rfl
  exact absurd h.stars (by decide)

theorem coversNames_cons (hs : s ≠ anyNames) (ss : List Text) (t : Text) (ts : List Text) :
    coversNames (s :: ss) (t :: ts) = (fits s t && coversNames ss ts) := by
  rw [coversNames, if_neg hs]

theorem coversNames_last (ts : List Text) : coversNames [anyNames] ts = !ts.isEmpty := rfl

theorem coversNames_anyNames (hss : ss ≠ []) (ts : List Text) :
    coversNames (anyNames :: ss) ts = ts.tails.any (coversNames ss) :=
  (if_pos rfl).trans (if_neg (by simpa using hss))

theorem coversNames_nil_right (s : Text) (ss : List Text) : coversNames (s :: ss) [] = false := by
  induction ss generalizing s with
  | nil => by_cases hs : s = anyNames <;> simp [coversNames, hs]
  | cons s' ss ih =>
    by_cases hs : s = anyNames
    · rw [hs, coversNames_anyNames (List.cons_ne_nil _ _), List.tails, List.any_cons, ih, List.any_nil, Bool.or_false]
    · rw [coversNames, if_neg hs]

/-- What lies below what a glob covers that ends in `**` is covered as well. -/
theorem coversNames_append (h : coversNames (ss ++ [anyNames]) ts = true) (more : List Text) :
    coversNames (ss ++ [anyNames]) (ts ++ more) = true := by
  induction ss generalizing ts with
  | nil =>
    rw [List.nil_append, coversNames_last] at h ⊢
    cases ts with
    | nil => exact absurd h Bool.false_ne_true
    | cons t ts => rfl
  | cons s ss ih =>
    rw [List.cons_append] at h ⊢
    by_cases hs : s = anyNames
    · rw [hs, coversNames_anyNames (by simp), List.any_eq_true] at h ⊢
      obtain ⟨back, hback, h⟩ := h
      obtain ⟨front, rfl⟩ := (List.mem_tails _ _).mp hback
      exact ⟨back ++ more, (List.mem_tails _ _).mpr (List.append_assoc front back more ▸ List.suffix_append _ _), ih h⟩
    · cases ts with
      | nil => exact absurd h (by rw [coversNames_nil_right]; exact Bool.false_ne_true)
      | cons t ts =>
        rw [coversNames_cons hs, Bool.and_eq_true] at h
        rw [List.cons_append, coversNames_cons hs, Bool.and_eq_true]
        exact ⟨h.1, ih h.2⟩

/-- A `**` at the end covers what lies below what the rest covers. -/
theorem coversNames_append_of_front (h : coversNames ss ts = true) {more : List Text} (hmore : more ≠ []) :
    coversNames (ss ++ [anyNames]) (ts ++ more) = true := by
  induction ss generalizing ts with
  | nil =>
    rw [List.isEmpty_iff.mp h, List.nil_append, List.nil_append, coversNames_last, Bool.not_eq_true',
      List.isEmpty_eq_false_iff]
    exact hmore
  | cons s ss ih =>
    rw [List.cons_append]
    by_cases hs : s = anyNames
    · rw [hs, coversNames_anyNames (by simp), List.any_eq_true]
      by_cases hss : ss = []
      · refine ⟨ts ++ more, (List.mem_tails _ _).mpr List.suffix_rfl, ?_⟩
        rw [hss, List.nil_append, coversNames_last, Bool.not_eq_true', List.isEmpty_eq_false_iff]
        exact List.append_ne_nil_of_right_ne_nil ts hmore
      · rw [hs, coversNames_anyNames hss, List.any_eq_true] at h
        obtain ⟨back, hback, h⟩ := h
        obtain ⟨front, rfl⟩ := (List.mem_tails _ _).mp hback
        exact ⟨back ++ more, (List.mem_tails _ _).mpr (List.append_assoc front back more ▸ List.suffix_append _ _),
          ih h⟩
    · cases ts with
      | nil => exact absurd h (by rw [coversNames_nil_right]; exact Bool.false_ne_true)
      | cons t ts =>
        rw [coversNames_cons hs, Bool.and_eq_true] at h
        rw [List.cons_append, coversNames_cons hs, Bool.and_eq_true]
        exact ⟨h.1, ih h.2⟩

/-- What lies below a directory that a glob covers which ends in `/**`, or whose contents it names, is covered. -/
theorem covers_below {directory : Text} {below : List Text} (hend : endsWith t "/**" = true)
    (h : covers t directory = true ∨ coversInside t directory = true) (hbelow : below ≠ [])
    (hpath : splitOn Path.slash path = splitOn Path.slash directory ++ below) : covers t path = true := by
  obtain ⟨front, rfl⟩ := List.isSuffixOf_iff_suffix.mp hend
  have hsplit : splitOn Path.slash (front ++ ofString "/**") = splitOn Path.slash front ++ [anyNames] :=
    splitOn_append Path.slash front anyNames
  rw [covers, coversInside, hsplit, List.dropLast_concat, Bool.and_eq_true] at h
  rw [covers, hsplit, hpath]
  cases h with
  | inl hcovers => exact coversNames_append hcovers below
  | inr hinside => exact coversNames_append_of_front hinside.2 hbelow

end Covers

section Matching

theorem matchFrom_nil_right (s : Segment) (ss : List Segment) : matchFrom (s :: ss) [] = false := by
  rw [matchFrom]

/-- Directories at the start of a glob are none or one more. -/
theorem matchFrom_anyDirectories {ss : List Segment} (hss : ss ≠ []) (t : Text) (ts : List Text) :
    matchFrom (.anyDirectories :: ss) (t :: ts) =
      (matchFrom ss (t :: ts) || (!Segment.isDots t && matchFrom (.anyDirectories :: ss) ts)) := by
  rw [matchFrom, if_neg (by simpa using hss)]

theorem matchFrom_cons {s : Segment} (hs : s ≠ .anyDirectories) (ss : List Segment) (t : Text) (ts : List Text) :
    matchFrom (s :: ss) (t :: ts) = (s.isMatch t && matchFrom ss ts) := by
  rw [matchFrom]
  exact hs

theorem matchFrom_last (t : Text) (ts : List Text) :
    matchFrom [.anyDirectories] (t :: ts) = (t :: ts).all fun t => !Segment.isDots t := by
  rw [matchFrom, List.isEmpty_nil, if_pos rfl]

theorem ofText_ne_anyDirectories (hs : s ≠ anyNames) : Segment.ofText s ≠ .anyDirectories := by
  have hany : ¬(s == ofString "**") = true := by simpa [anyNames] using hs
  rw [Segment.ofText, if_neg hany]
  dsimp only
  repeat' split
  all_goals exact Segment.noConfusion

/-- The segments that names spell match the paths that the names cover. -/
theorem matchFrom_of_wild (hss : ∀ s ∈ ss, s = anyNames ∨ WildName s)
    (hts : ∀ t ∈ ts, t ≠ [] ∧ Segment.isDots t = false ∧ Path.slash ∉ t) :
    matchFrom (ss.map Segment.ofText) ts = coversNames ss ts := by
  induction ss generalizing ts with
  | nil =>
    cases ts with
    | nil => simp [matchFrom, coversNames]
    | cons t ts =>
      have ht := (hts t List.mem_cons_self).1
      simp [matchFrom, coversNames, ht]
  | cons s ss ih =>
    obtain ⟨hs, hss⟩ := List.forall_mem_cons.mp hss
    rw [List.map_cons]
    cases hs with
    | inr hs =>
      cases ts with
      | nil => rw [matchFrom_nil_right, coversNames_nil_right]
      | cons t ts =>
        obtain ⟨⟨hne, hdots, hslash⟩, hts⟩ := List.forall_mem_cons.mp hts
        rw [matchFrom_cons (ofText_ne_anyDirectories hs.ne_anyNames), coversNames_cons hs.ne_anyNames, ih hss hts,
          isMatch_ofText_of_wild hs hne hdots hslash]
    | inl hs =>
      have hany : Segment.ofText s = .anyDirectories := by rw [hs]; rfl
      rw [hany, hs]
      by_cases hlast : ss = []
      · cases ts with
        | nil => rw [matchFrom_nil_right, coversNames_nil_right]
        | cons t ts =>
          rw [hlast, List.map_nil, matchFrom_last, coversNames_last, List.isEmpty_cons, Bool.not_false,
            List.all_eq_true]
          exact fun t ht => by rw [(hts t ht).2.1, Bool.not_false]
      · rw [coversNames_anyNames hlast]
        induction ts with
        | nil =>
          obtain ⟨s', ss', rfl⟩ := List.exists_cons_of_ne_nil hlast
          rw [matchFrom_nil_right, List.tails, List.any_cons, coversNames_nil_right, List.any_nil, Bool.or_false]
        | cons t ts ih' =>
          obtain ⟨⟨_, hdots, _⟩, hrest⟩ := List.forall_mem_cons.mp hts
          rw [matchFrom_anyDirectories (by simpa using hlast), ih hss hts, ih' hrest, hdots, Bool.not_false,
            Bool.true_and, List.tails_cons, List.any_cons]

/-- Names that are not dots and hold no two `**` in a row are simple already. -/
theorem foldl_simplifyStep {kept : List Text} (hdots : ∀ s ∈ ss, s ≠ ofString "..")
    (hapart : ss.IsChain fun s s' => s = anyNames → s' ≠ anyNames)
    (hkept : ∀ last ∈ kept.head?, ∀ s ∈ ss.head?, last = anyNames → s ≠ anyNames) :
    ss.foldl simplifyStep kept = ss.reverse ++ kept := by
  induction ss generalizing kept with
  | nil => rfl
  | cons s ss ih =>
    obtain ⟨hs, hdots⟩ := List.forall_mem_cons.mp hdots
    obtain ⟨hnext, hapart⟩ := List.isChain_cons.mp hapart
    have hstep : simplifyStep kept s = s :: kept := by
      cases kept with
      | nil => rfl
      | cons last rest =>
        have htwice : ¬(s == ofString "**" && last == ofString "**") = true := by
          rw [Bool.and_eq_true, beq_iff_eq, beq_iff_eq]
          exact fun ⟨hs, hlast⟩ => hkept last rfl s rfl hlast hs
        have hup : (s == ofString "..") = false := beq_false_of_ne hs
        rw [simplifyStep, if_neg htwice, hup, Bool.false_and, if_neg Bool.false_ne_true]
    rw [List.foldl_cons, hstep, ih hdots hapart, List.reverse_cons, List.append_assoc, List.singleton_append]
    rintro last hlast s' hs'
    obtain rfl := Option.some.inj hlast
    exact hnext s' hs'

end Matching

namespace Wild
variable (h : Wild t)
include h

theorem name_ne {name : Text} (hname : name ∈ splitOn Path.slash t) : name ≠ [] ∧ Segment.isDots name = false := by
  cases h.names name hname with
  | inl hany => rw [hany]; decide
  | inr hwild => exact ⟨hwild.ne_nil, hwild.not_dots⟩

theorem simplify_segments : simplify (segments t) = splitOn Path.slash t := by
  have hsegments : segments t = splitOn Path.slash t := collapse_eq_self fun s hs => (h.name_ne hs).1
  have hdots : ∀ s ∈ splitOn Path.slash t, s ≠ ofString ".." := by
    rintro s hs rfl
    exact absurd (h.name_ne hs).2 (by decide)
  rw [simplify, hsegments, foldl_simplifyStep hdots h.apart (by simp), List.append_nil, List.reverse_reverse]
  split
  next hnil => exact absurd hnil (splitOn_ne_nil _ _)
  · rfl

/-- The units of a glob are slashes and those of its names. -/
theorem isWild_of_mem {u : UInt16} (hu : u ∈ t) : u = Path.slash ∨ isWild u = true := by
  obtain hu | ⟨s, hs, hu⟩ := eq_or_mem_piece Path.slash hu
  · exact .inl hu
  · right
    cases h.names s hs with
    | inl hany =>
      have hunits : ∀ v ∈ anyNames, isWild v = true := List.all_eq_true.mp (by decide)
      exact hunits u (hany ▸ hu)
    | inr hwild => exact hwild.units u hu

end Wild

section Filter

def spelled (t : Text) : List Segment := (simplify (segments t)).map Segment.ofText

theorem isMatch_ofText (hcomment : t.head? ≠ some (unit '#')) (hbang : t.head? ≠ some bang) (path : Text) :
    (ofText t).isMatch path = (Brace.expand t).any fun g => matchFrom (spelled g) (segments path) := by
  have hmarks : (t.takeWhile (· == bang)).length = 0 := by
    cases t with
    | nil => rfl
    | cons u rest =>
      have hu : (u == bang) = false := by simpa using hbang
      rw [List.takeWhile_cons_of_neg (by rw [hu]; exact Bool.false_ne_true), List.length_nil]
  have hempty : Brace.expand [] = [[]] := rfl
  have hliteral : spelled [] = [Segment.literal []] := rfl
  unfold ofText isMatch
  dsimp only
  rw [if_neg (by simpa using hcomment), hmarks]
  split
  next ht =>
    simp [List.isEmpty_iff.mp ht, hempty, hliteral]
  · simp [spelled, List.any_map, Function.comp_def]

theorem names_of_named (hpath : Path.Named path) :
    ∀ s ∈ splitOn Path.slash path, s ≠ [] ∧ Segment.isDots s = false ∧ Path.slash ∉ s := fun s hs =>
  ⟨(hpath.segments s hs).1, (hpath.segments s hs).2, not_mem_of_mem_splitOn hs⟩

namespace Wild
variable (h : Wild t)
include h

/-- The filter of a project matches what a wild glob covers. -/
theorem matchFrom_spelled (hpath : Path.Named path) : matchFrom (spelled t) (segments path) = covers t path := by
  rw [spelled, h.simplify_segments, hpath.segments_eq, matchFrom_of_wild h.names (names_of_named hpath), covers]

theorem head?_ne {c : Char} (hc : isWild (unit c) = false) (hslash : unit c ≠ Path.slash) :
    t.head? ≠ some (unit c) := by
  intro hhead
  obtain ⟨rest, rfl⟩ := List.head?_eq_some_iff.mp hhead
  exact absurd ((h.isWild_of_mem List.mem_cons_self).resolve_left hslash) (by rw [hc]; exact Bool.false_ne_true)

theorem takesBack_eq : Search.takesBack t = false := by
  have hhead : (t.head? == some (unit '!')) = false := beq_false_of_ne (h.head?_ne (by decide) (by decide))
  rw [Search.takesBack, hhead, Bool.false_and]

theorem startsWith_dot : startsWith t "./" = false := by
  refine Bool.eq_false_iff.mpr fun hdot => ?_
  obtain ⟨rest, rfl⟩ := List.isPrefixOf_iff_prefix.mp hdot
  have hname : ofString "." ∈ splitOn Path.slash (ofString "./" ++ rest) := by
    have hsplit :
        splitOn Path.slash (ofString "." ++ Path.slash :: rest) = splitOn Path.slash "." ++ splitOn Path.slash rest :=
      splitOn_append Path.slash "." rest
    exact hsplit ▸ List.mem_append_left _ List.mem_cons_self
  exact absurd (h.name_ne hname).2 (by decide)

theorem joinSlashes_eq : Search.joinSlashes t = t := by
  have hsqueeze :
      ∀ rest : Text, (∀ s ∈ (splitOn Path.slash rest).tail, s ≠ []) → Search.joinSlashes.squeeze rest = rest := by
    intro rest hrest
    fun_induction Search.joinSlashes.squeeze rest with
    | case1 => rfl
    | case2 u => rfl
    | case3 u v rest hslashes ih =>
      obtain ⟨rfl, rfl⟩ : u = Path.slash ∧ v = Path.slash := by simpa using hslashes
      obtain ⟨head, tail, hs⟩ := List.exists_cons_of_ne_nil (splitOn_ne_nil Path.slash rest)
      rw [splitOn_cons (splitOn_cons hs Path.slash), if_pos rfl] at hrest
      exact absurd rfl (hrest [] List.mem_cons_self)
    | case4 u v rest hslashes ih =>
      obtain ⟨head, tail, hs⟩ := List.exists_cons_of_ne_nil (splitOn_ne_nil Path.slash (v :: rest))
      rw [splitOn_cons hs] at hrest
      refine congrArg (u :: ·) (ih fun s hmem => hrest s ?_)
      rw [hs, List.tail_cons] at hmem
      split
      · exact List.mem_cons_of_mem _ hmem
      · exact hmem
  cases t with
  | nil => rfl
  | cons u rest =>
    refine congrArg (u :: ·) (hsqueeze rest fun s hs => ?_)
    suffices hname : s ∈ splitOn Path.slash (u :: rest) from (h.name_ne hname).1
    obtain ⟨head, tail, hrest⟩ := List.exists_cons_of_ne_nil (splitOn_ne_nil Path.slash rest)
    rw [hrest, List.tail_cons] at hs
    rw [splitOn_cons hrest]
    split
    · exact List.mem_cons_of_mem _ (List.mem_cons_of_mem _ hs)
    · exact List.mem_cons_of_mem _ hs

end Wild

theorem expand_of_unbraced (h : unit '\x7b' ∉ t) : Brace.expand t = [t] := by
  rw [Brace.expand, Brace.hasPair, splitOn_of_not_mem h]
  rfl

end Filter
end Glob
end AnnotationIndex
