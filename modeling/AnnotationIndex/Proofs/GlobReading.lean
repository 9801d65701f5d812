import AnnotationIndex.Proofs.WildGlobs

/-!
Globs with one pair of braces around a list. Such a glob stands for the globs that have a part of the list in place
of the braces.
-/
namespace AnnotationIndex
open Text

namespace Glob.Brace
variable {t : Text}

def opening : UInt16 := unit '\x7b'
def closing : UInt16 := unit '\x7d'
def comma : UInt16 := unit ','

def front (t : Text) : Text := t.takeWhile (· != opening)
def inside (t : Text) : Text := ((t.dropWhile (· != opening)).drop 1).takeWhile (· != closing)
def back (t : Text) : Text := (((t.dropWhile (· != opening)).drop 1).dropWhile (· != closing)).drop 1

def choices (t : Text) : List Text :=
  if opening ∈ t then (splitOn comma (inside t)).map fun part => front t ++ part ++ back t else [t]

/-- One pair of braces around a list, and no signs that could keep it from being one. -/
structure Listed (t : Text) : Prop where
  pair : t = front t ++ opening :: (inside t ++ closing :: back t)
  list : comma ∈ inside t
  range : contains (inside t) ".." = false
  signs : ∀ u ∈ t, (ofString "$'`").elem u = false
  short : t.length ≤ 10000

/-- A glob that stands for wild globs and has at most one list in braces. -/
structure Simple (t : Text) : Prop where
  listed : opening ∈ t → Listed t
  wild : ∀ g ∈ choices t, Wild g

instance (t : Text) : Decidable (Listed t) :=
  decidable_of_iff (t = front t ++ opening :: (inside t ++ closing :: back t) ∧ comma ∈ inside t ∧
      contains (inside t) ".." = false ∧ t.all (fun u => !(ofString "$'`").elem u) = true ∧ t.length ≤ 10000)
    ⟨fun h => ⟨h.1, h.2.1, h.2.2.1, by simpa using h.2.2.2.1, h.2.2.2.2⟩,
      fun h => ⟨h.pair, h.list, h.range, by simpa using h.signs, h.short⟩⟩

instance (t : Text) : Decidable (Simple t) :=
  decidable_of_iff ((opening ∈ t → Listed t) ∧ ∀ g ∈ choices t, Wild g)
    ⟨fun h => ⟨h.1, h.2⟩, fun h => ⟨h.listed, h.wild⟩⟩

section Plain

def Bare (t : Text) : Prop := ∀ u ∈ t, u ≠ unit '\\' ∧ u ≠ opening ∧ u ≠ closing ∧ isLineTerminator u = false

theorem plain_append (s t : Text) : plain (s ++ t) = plain s ++ plain t := List.map_append

theorem toText_plain (t : Text) : toText (plain t) = t := by
  rw [toText, plain, List.map_map]
  exact List.map_id t

theorem ofText_plain (h : ∀ u ∈ t, u ≠ unit '\\') : ofText t = plain t := by
  fun_induction ofText t with
  | case1 => rfl
  | case2 u => rfl
  | case3 u v rest hescape ih =>
    rw [Bool.and_eq_true, beq_iff_eq] at hescape
    exact absurd hescape.1 (h u List.mem_cons_self)
  | case4 u v rest hescape ih => exact congrArg (_ :: ·) (ih fun w hw => h w (List.mem_cons_of_mem _ hw))

theorem isSign_plain (c : Char) (u : UInt16) : isSign c ⟨u, false⟩ = (u == unit c) := Bool.and_true _

theorem pairFrom_bare (h : Bare t) (opened : List Nat) (best : Option (Nat × Nat)) (i : Nat) (us : List BraceUnit) :
    pairFrom opened best i (plain t ++ us) = pairFrom opened best (i + t.length) us := by
  induction t generalizing i with
  | nil => rfl
  | cons u t ih =>
    obtain ⟨⟨_, hopening, hclosing, _⟩, ht⟩ := List.forall_mem_cons.mp h
    have hno : (u == unit '\x7b') = false := beq_false_of_ne hopening
    have hnc : (u == unit '\x7d') = false := beq_false_of_ne hclosing
    have hstep : pairFrom opened best i (plain (u :: t) ++ us) = pairFrom opened best (i + 1) (plain t ++ us) := by
      simp [plain, pairFrom, isSign_plain, hno, hnc]
    rw [hstep, ih ht, List.length_cons, Nat.add_assoc, Nat.add_comm 1]

theorem split?_bare (h : Bare t) : split? (plain t) = none := by
  rw [split?, ← List.append_nil (plain t), pairFrom_bare h]
  rfl

theorem split?_pair {s t r : Text} (hs : Bare s) (ht : Bare t) :
    split? (plain (s ++ opening :: (t ++ closing :: r))) = some (plain s, plain t, plain r) := by
  have hpair : pairFrom [] none 0 (plain (s ++ opening :: (t ++ closing :: r))) =
      some (s.length, s.length + 1 + t.length) := by
    rw [plain_append, pairFrom_bare hs, Nat.zero_add, plain, List.map_cons, ← plain, plain_append]
    exact (pairFrom_bare ht [s.length] none (s.length + 1) _).trans rfl
  have hopened : (s ++ [opening]).length = s.length + 1 := List.length_append
  have hclosed : (s ++ [opening] ++ t).length = s.length + 1 + t.length := by rw [List.length_append, hopened]
  have hbehind : (s ++ [opening] ++ t ++ [closing]).length = s.length + 1 + t.length + 1 := by
    rw [List.length_append, hclosed, List.length_singleton]
  have hwhole : s ++ opening :: (t ++ closing :: r) = s ++ [opening] ++ t ++ [closing] ++ r := by
    simp only [List.append_assoc, List.cons_append, List.nil_append]
  rw [split?, hpair, Option.map_some, plain]
  simp only [← List.map_take, ← List.map_drop]
  rw [List.take_left' rfl, hwhole, List.drop_left' hbehind, List.append_assoc _ _ r, List.take_left' hclosed,
    List.drop_left' hopened]
  rfl

theorem atCommas_plain (t : Text) : commaParts.atCommas (plain t) = (splitOn comma t).map plain := by
  induction t with
  | nil => rfl
  | cons u t ih =>
    obtain ⟨head, tail, hs⟩ := List.exists_cons_of_ne_nil (splitOn_ne_nil comma t)
    rw [plain, List.map_cons, ← plain, commaParts.atCommas, ih, isSign_plain, splitOn_cons hs, hs]
    by_cases hu : u = comma
    · rw [if_pos hu, hu]
      rfl
    · have hother : (u == unit ',') = false := beq_false_of_ne hu
      rw [if_neg hu, hother]
      rfl

theorem splitText_of_not_contains {sep : Text} (h : contains t sep = false) : splitText sep t = [t] := by
  induction t with
  | nil => rfl
  | cons u t ih =>
    rw [contains, find?] at h
    split at h
    · exact absurd h.symm Bool.false_ne_true
    next hsep =>
    rw [Option.isSome_map] at h
    rw [splitText, splitOnText, Bool.eq_false_iff.mpr hsep, Bool.and_false, if_neg Bool.false_ne_true, ← splitText,
      ih h]

/-- Without two dots a list is no sequence. -/
theorem sequence?_eq_none (h : contains t ".." = false) : sequence? (plain t) = none := by
  have hwhole : splitText ".." t = [t] := splitText_of_not_contains h
  have hescaped : (plain t).any (·.escaped) = false := by
    simp [plain]
  simp [sequence?, hescaped, toText_plain, hwhole]

theorem exists_parts_of_comma (h : comma ∈ t) : ∃ part part' more, splitOn comma t = part :: part' :: more := by
  obtain ⟨s, r, rfl⟩ := List.append_of_mem h
  obtain ⟨part, more, hs⟩ := List.exists_cons_of_ne_nil (splitOn_ne_nil comma s)
  obtain ⟨part', more', hr⟩ := List.exists_cons_of_ne_nil (splitOn_ne_nil comma r)
  rw [splitOn_append, hs, hr]
  cases more with
  | nil => exact ⟨part, part', more', rfl⟩
  | cons next more => exact ⟨part, next, more ++ part' :: more', rfl⟩

theorem expandFrom_bare (h : Bare t) (n : Nat) (top : Bool) : expandFrom (n + 1) top (plain t) = [plain t] := by
  rw [expandFrom, split?_bare h]

theorem commaParts_bare (h : Bare t) (hne : t ≠ []) :
    commaParts (plain t).length (plain t) = (splitOn comma t).map plain := by
  obtain ⟨u, rest, rfl⟩ := List.exists_cons_of_ne_nil hne
  have hlength : (plain (u :: rest)).length = rest.length + 1 := List.length_map _
  rw [hlength, commaParts, split?_bare h]
  exact atCommas_plain _

/-- A list in braces is replaced by each of its parts. -/
theorem expandFrom_pair {s r : Text} (hs : Bare s) (ht : Bare t) (hr : Bare r) (hdollar : unit '$' ∉ s)
    (hlist : comma ∈ t) (hrange : contains t ".." = false) (hparts : ∀ part ∈ splitOn comma t, Bare part)
    (hne : ∀ part ∈ splitOn comma t, s ++ part ++ r ≠ []) (n : Nat) :
    expandFrom (n + 2) true (plain (s ++ opening :: (t ++ closing :: r))) =
      (splitOn comma t).map fun part => plain (s ++ part ++ r) := by
  have htails : (if (plain r).isEmpty then [[]] else expandFrom (n + 1) false (plain r)) = [plain r] := by
    cases r with
    | nil => rfl
    | cons u r => exact expandFrom_bare hr n false
  have hsign : (plain s).getLast?.any (isSign '$') = false := by
    rw [plain, List.getLast?_map, Option.any_map]
    cases hlast : s.getLast? with
    | none => rfl
    | some u =>
      have hu : u ≠ unit '$' := fun he => hdollar (he ▸ List.mem_of_getLast? hlast)
      exact (isSign_plain '$' u).trans (beq_false_of_ne hu)
  have hcomma : (plain t).any (isSign ',') = true := by
    rw [plain, List.any_map, List.any_eq_true]
    exact ⟨comma, hlist, rfl⟩
  have hexpanded : ((splitOn comma t).map plain).flatMap (expandFrom (n + 1) false) = (splitOn comma t).map plain := by
    rw [List.flatMap_map, List.flatMap_congr fun part hpart => expandFrom_bare (hparts part hpart) n false]
    exact List.map_eq_flatMap.symm
  have hjoined : (((splitOn comma t).map plain).flatMap fun part => [plain r].map fun tail => plain s ++ part ++ tail) =
      (splitOn comma t).map fun part => plain (s ++ part ++ r) := by
    rw [List.flatMap_map]
    simp only [List.map_singleton, ← plain_append]
    exact List.map_eq_flatMap.symm
  have hkept : ((((splitOn comma t).map plain).flatMap (expandFrom (n + 1) false)).flatMap fun part =>
      [plain r].map fun tail => plain s ++ part ++ tail).filter (fun e => !true || !e.isEmpty) =
      (splitOn comma t).map fun part => plain (s ++ part ++ r) := by
    rw [hexpanded, hjoined, List.filter_eq_self]
    rintro _ hmem
    obtain ⟨part, hpart, rfl⟩ := List.mem_map.mp hmem
    simpa [plain] using hne part hpart
  have hcommas := commaParts_bare ht (List.ne_nil_of_mem hlist)
  obtain ⟨part, part', more, hsplit⟩ := exists_parts_of_comma hlist
  rw [expandFrom, split?_pair hs ht]
  simp only [htails, hsign, sequence?_eq_none hrange, hcomma, hcommas, Bool.false_eq_true, if_false, if_true]
  rw [hsplit] at hkept ⊢
  exact hkept

theorem hasPair_pair {s r : Text} (hs : Bare s) (ht : Bare t) (hr : Bare r) :
    hasPair (s ++ opening :: (t ++ closing :: r)) = true := by
  have hfront : opening ∉ s := fun h => (hs _ h).2.1 rfl
  have hbehind : opening ∉ t ++ closing :: r := by
    simp only [List.mem_append, List.mem_cons, not_or]
    exact ⟨fun h => (ht _ h).2.1 rfl, by decide, fun h => (hr _ h).2.1 rfl⟩
  have hline : ∀ u ∈ t, (!isLineTerminator u) = true := fun u hu => by rw [(ht u hu).2.2.2, Bool.not_false]
  have hclosed : closing ∈ (t ++ closing :: r).takeWhile fun u => !isLineTerminator u := by
    rw [List.takeWhile_append_of_pos hline, List.takeWhile_cons_of_pos (by decide)]
    exact List.mem_append_right _ List.mem_cons_self
  rw [hasPair, ← opening, splitOn_append, splitOn_of_not_mem hfront, splitOn_of_not_mem hbehind]
  exact List.any_eq_true.mpr ⟨_, List.mem_singleton_self _, List.elem_iff.mpr hclosed⟩

theorem expand_pair {s r : Text} (hs : Bare s) (ht : Bare t) (hr : Bare r) (hdollar : unit '$' ∉ s)
    (hlist : comma ∈ t) (hrange : contains t ".." = false) (hparts : ∀ part ∈ splitOn comma t, Bare part)
    (hne : ∀ part ∈ splitOn comma t, s ++ part ++ r ≠ []) :
    expand (s ++ opening :: (t ++ closing :: r)) = (splitOn comma t).map fun part => s ++ part ++ r := by
  have hescape : ∀ u ∈ s ++ opening :: (t ++ closing :: r), u ≠ unit '\\' := by
    simp only [List.mem_append, List.mem_cons]
    rintro u (hu | rfl | hu | rfl | hu)
    · exact (hs u hu).1
    · decide
    · exact (ht u hu).1
    · decide
    · exact (hr u hu).1
  have hempty : startsWith (s ++ opening :: (t ++ closing :: r)) (ofString "\x7b\x7d") = false := by
    cases s with
    | nil =>
      obtain ⟨u, rest, rfl⟩ := List.exists_cons_of_ne_nil (List.ne_nil_of_mem hlist)
      have hu : (closing == u) = false := beq_false_of_ne (ht u List.mem_cons_self).2.2.1.symm
      exact Bool.and_eq_false_iff.mpr (.inl hu)
    | cons u rest =>
      have hu : (opening == u) = false := beq_false_of_ne (hs u List.mem_cons_self).2.1.symm
      exact Bool.and_eq_false_iff.mpr (.inl hu)
  rw [expand, if_pos (hasPair_pair hs ht hr), hempty, if_neg Bool.false_ne_true]
  dsimp only
  rw [ofText_plain hescape, expandFrom_pair hs ht hr hdollar hlist hrange hparts hne, List.map_map]
  exact List.map_congr_left fun part _ => toText_plain _

end Plain

theorem bare_of_wild (h : Wild t) : Bare t := by
  intro u hu
  obtain rfl | hwild := h.isWild_of_mem hu
  · decide
  · exact ⟨ne_of_isWild hwild (by decide), ne_of_isWild hwild (by decide), ne_of_isWild hwild (by decide),
      isLineTerminator_of_isWild hwild⟩

/-- A glob with at most one list in braces stands for the globs with the parts of the list. -/
theorem expand_of_simple (h : Simple t) : expand t = choices t := by
  by_cases hopening : opening ∈ t
  · have hl := h.listed hopening
    have hchoices : choices t = (splitOn comma (inside t)).map fun part => front t ++ part ++ back t := if_pos hopening
    have hwild : ∀ part ∈ splitOn comma (inside t), Wild (front t ++ part ++ back t) := fun part hpart =>
      h.wild _ (hchoices ▸ List.mem_map_of_mem hpart)
    obtain ⟨part₀, parts, hparts⟩ := List.exists_cons_of_ne_nil (splitOn_ne_nil comma (inside t))
    have hsome := bare_of_wild (hwild part₀ (hparts ▸ List.mem_cons_self))
    have hfront : Bare (front t) := fun u hu => hsome u (List.mem_append_left _ (List.mem_append_left _ hu))
    have hback : Bare (back t) := fun u hu => hsome u (List.mem_append_right _ hu)
    have hbare : ∀ part ∈ splitOn comma (inside t), Bare part := fun part hpart u hu =>
      bare_of_wild (hwild part hpart) u (List.mem_append_left _ (List.mem_append_right _ hu))
    have hinside : Bare (inside t) := by
      intro u hu
      obtain rfl | ⟨part, hpart, hu⟩ := eq_or_mem_piece comma hu
      · decide
      · exact hbare part hpart u hu
    have hdollar : unit '$' ∉ front t := fun hu =>
      absurd (hl.signs _ ((List.takeWhile_sublist _).mem hu)) (by decide)
    have hne : ∀ part ∈ splitOn comma (inside t), front t ++ part ++ back t ≠ [] := fun part hpart he =>
      absurd (he ▸ hwild part hpart) (by decide)
    exact (congrArg expand hl.pair).trans
      ((expand_pair hfront hinside hback hdollar hl.list hl.range hbare hne).trans hchoices.symm)
  · rw [choices, if_neg hopening]
    exact expand_of_unbraced hopening

namespace Simple
variable {path : Text} (h : Simple t)
include h

/-- A simple glob starts as a wild one or with braces. -/
theorem head?_ne {c : Char} (hwild : isWild (unit c) = false) (hslash : unit c ≠ Path.slash)
    (hbrace : unit c ≠ opening) : t.head? ≠ some (unit c) := by
  intro hhead
  by_cases hopening : opening ∈ t
  · have hchoices : choices t = (splitOn comma (inside t)).map fun part => front t ++ part ++ back t := if_pos hopening
    obtain ⟨part, parts, hparts⟩ := List.exists_cons_of_ne_nil (splitOn_ne_nil comma (inside t))
    have hchoice := h.wild (front t ++ part ++ back t) (by rw [hchoices, hparts]; exact List.mem_cons_self)
    rw [(h.listed hopening).pair] at hhead
    cases hfront : front t with
    | nil =>
      rw [hfront] at hhead
      exact hbrace (Option.some.inj hhead).symm
    | cons u rest =>
      rw [hfront] at hhead hchoice
      exact hchoice.head?_ne hwild hslash hhead
  · have hchoices : choices t = [t] := if_neg hopening
    exact (h.wild t (hchoices ▸ List.mem_singleton_self t)).head?_ne hwild hslash hhead

/-- The filter of a project matches what the globs cover for which a simple glob stands. -/
theorem isMatch_iff (hpath : Path.Named path) :
    (Glob.ofText t).isMatch path = true ↔ ∃ g ∈ choices t, covers g path = true := by
  have hcomment : t.head? ≠ some (unit '#') := h.head?_ne (by decide) (by decide) (by decide)
  have hbang : t.head? ≠ some bang := h.head?_ne (c := '!') (by decide) (by decide) (by decide)
  rw [isMatch_ofText hcomment hbang, expand_of_simple h, List.any_eq_true]
  refine exists_congr fun g => and_congr_right fun hg => ?_
  rw [(h.wild g hg).matchFrom_spelled hpath]

end Simple
end Glob.Brace

/-- What is known of a reader of globs: a glob stands for its choices, its base is what stands in front of its
wildcards, and a wild glob matches what it covers. It is not said whether `**` at the end stands for the directory
itself, and what the base is if a question mark stands above the last name. -/
structure GlobReader.Documented (reader : GlobReader) : Prop where
  mem_expand : ∀ t, Glob.Brace.Simple t → ∀ g, g ∈ reader.expand t ↔ g ∈ Glob.Brace.choices t
  base_eq : ∀ t, Glob.Wild t → (∀ s ∈ (splitOn Path.slash t).dropLast, Glob.mark ∉ s) → reader.base t = baseOf t
  reads_of_covers : ∀ t path, Glob.Wild t → Path.Named path → Glob.covers t path = true → reader.reads t path = true
  covers_of_reads : ∀ t path, Glob.Wild t → Path.Named path → reader.reads t path = true →
    Glob.covers t path = true ∨ Glob.coversInside t path = true

namespace GlobReader
variable {path t : Text}

/-- A glob without groups, brackets and escapes is spelled as it stands. -/
theorem spellFrom_eq_self (h : ∀ u ∈ t, u ≠ unit '\\' ∧ u ≠ unit '[' ∧ u ≠ unit '(') (n : Nat) (kinded : Bool) :
    spellFrom n kinded t = t := by
  induction n generalizing t kinded with
  | zero => rfl
  | succ n ih =>
    cases t with
    | nil => rfl
    | cons u rest =>
      obtain ⟨⟨hescape, hbracket, hparen⟩, hrest⟩ := List.forall_mem_cons.mp h
      simp only [spellFrom, beq_false_of_ne hescape, beq_false_of_ne hbracket, beq_false_of_ne hparen, Bool.false_and,
        Bool.false_eq_true, if_false, ih hrest]

theorem spell_of_wild (h : Glob.Wild t) : spell t = t := by
  refine spellFrom_eq_self (fun u hu => ?_) _ _
  obtain rfl | hwild := h.isWild_of_mem hu
  · decide
  · exact ⟨Glob.ne_of_isWild hwild (by decide), Glob.ne_of_isWild hwild (by decide),
      Glob.ne_of_isWild hwild (by decide)⟩

/-- A wild glob is read as what it covers, and `**` at its end stands for the directory unless a star ends the name
before. -/
theorem readsPath_of_wild (h : Glob.Wild t) (hpath : Path.Named path) : readsPath t path =
    (Glob.covers t path || (coversDirectory (splitOn Path.slash t) &&
      Glob.coversNames (splitOn Path.slash t).dropLast (splitOn Path.slash path))) := by
  have hdot : withoutDot t = t := if_neg (by rw [← startsWith, h.startsWith_dot]; exact Bool.false_ne_true)
  have hnames := Glob.names_of_named hpath
  have hfront : ∀ s ∈ (splitOn Path.slash t).dropLast, s = Glob.anyNames ∨ Glob.WildName s := fun s hs =>
    h.names s (List.mem_of_mem_dropLast hs)
  unfold readsPath
  simp only [hdot, spell_of_wild h, h.simplify_segments, hpath.segments_eq, Glob.matchFrom_of_wild h.names hnames,
    Glob.matchFrom_of_wild hfront hnames, Glob.covers]

theorem documented_standard : standard.Documented where
  mem_expand _ h _ := by rw [← Glob.Brace.expand_of_simple h, standard]
  base_eq _ _ _ := rfl
  reads_of_covers t path ht hpath hcovers := (readsPath_of_wild ht hpath).trans (by rw [hcovers, Bool.true_or])
  covers_of_reads t path ht hpath hreads := by
    have hreads := (readsPath_of_wild ht hpath).symm.trans hreads
    rw [Bool.or_eq_true, Bool.and_eq_true, coversDirectory, Bool.and_eq_true] at hreads
    exact hreads.imp_right fun ⟨⟨hlast, _⟩, hcovers⟩ => (Bool.and_eq_true _ _).mpr ⟨hlast, hcovers⟩

/-- A glob that names the contents of a directory has no plain text as its last name. -/
theorem isSingle_of_coversInside (h : Glob.coversInside t path = true) : isSingle (Path.baseName t) = false := by
  rw [Glob.coversInside, Bool.and_eq_true, beq_iff_eq] at h
  obtain ⟨front, hfront⟩ := List.getLast?_eq_some_iff.mp h.1
  have hstar : t = join [Path.slash] (front ++ [[Glob.star]]) ++ [Glob.star] := by
    rw [← join_concat_append, ← join_splitOn Path.slash t, hfront]
    rfl
  have hlast : Glob.star ∈ Path.baseName t := by
    rw [Path.baseName, Path.dropSlashes, afterLast, List.reverse_reverse, List.mem_reverse, hstar, List.reverse_append]
    exact List.mem_cons_self
  have hwild : (Path.baseName t).any (Pattern.oneOf "*?\\") = true := List.any_eq_true.mpr ⟨_, hlast, by decide⟩
  rw [isSingle, hwild, Bool.true_or, Bool.true_or, Bool.true_or, Bool.true_or, Bool.true_or, Bool.not_true]

section Base

theorem isPlain_of_isFixed {s : Text} (h : Glob.WildName s) (hmark : Glob.mark ∉ s) (hfixed : isFixed s = true) :
    ∀ u ∈ s, Glob.isPlain u = true := by
  have hself : s.filter (· != unit '?') = s :=
    List.filter_eq_self.mpr fun u hu => bne_iff_ne.mpr fun he => hmark (he ▸ hu : unit '?' ∈ s)
  have hsingle : isSingle s = true := by
    rw [isFixed, hself, Bool.and_eq_true, Bool.and_eq_true] at hfixed
    exact hfixed.1.1
  intro u hu
  have hwild := h.units u hu
  simp only [Glob.isWild, Bool.or_eq_true, beq_iff_eq] at hwild
  obtain (hplain | rfl) | rfl := hwild
  · exact hplain
  · have hstar : s.any (Pattern.oneOf "*?\\") = true := List.any_eq_true.mpr ⟨_, hu, by decide⟩
    rw [isSingle, hstar] at hsingle
    exact absurd hsingle (by simp)
  · exact absurd hu hmark

theorem exists_below_of_coversNames {ss rest ts : List Text} (hss : ∀ s ∈ ss, ∀ u ∈ s, Glob.isPlain u = true)
    (hrest : rest ≠ []) (h : Glob.coversNames (ss ++ rest) ts = true) : ∃ below, below ≠ [] ∧ ts = ss ++ below := by
  induction ss generalizing ts with
  | nil =>
    refine ⟨ts, ?_, rfl⟩
    rintro rfl
    obtain ⟨s, rest, rfl⟩ := List.exists_cons_of_ne_nil hrest
    exact absurd ((Glob.coversNames_nil_right s rest).symm.trans h) Bool.false_ne_true
  | cons s ss ih =>
    obtain ⟨hs, hss⟩ := List.forall_mem_cons.mp hss
    have hany : s ≠ Glob.anyNames := by
      rintro rfl
      exact absurd (hs Glob.star (by decide)) (by decide)
    cases ts with
    | nil => exact absurd ((Glob.coversNames_nil_right s _).symm.trans h) Bool.false_ne_true
    | cons t ts =>
      rw [List.cons_append, Glob.coversNames_cons hany, Glob.fits_of_plain hs, Bool.and_eq_true, beq_iff_eq] at h
      obtain ⟨below, hbelow, rfl⟩ := ih hss h.2
      exact ⟨below, hbelow, by rw [h.1, List.cons_append]⟩

/-- What a wild glob covers lies below its base. -/
theorem isUnder_baseOf (h : Glob.Wild t) (hmarks : ∀ s ∈ (splitOn Path.slash t).dropLast, Glob.mark ∉ s)
    (hcovers : Glob.covers t path = true) : baseOf t = currentDirectory ∨ Disk.isUnder (baseOf t) path = true := by
  have hdot : withoutDot t = t := if_neg (by rw [← startsWith, h.startsWith_dot]; exact Bool.false_ne_true)
  have hbase : baseOf t = if ((splitOn Path.slash t).dropLast.takeWhile isFixed).isEmpty then currentDirectory else
      join [Path.slash] ((splitOn Path.slash t).dropLast.takeWhile isFixed) := by rw [baseOf, hdot]
  rw [hbase]
  split
  · exact .inl rfl
  next hnames =>
  right
  have hfront : (splitOn Path.slash t).dropLast.takeWhile isFixed <+: splitOn Path.slash t :=
    (List.takeWhile_prefix _).trans (List.dropLast_prefix _)
  obtain ⟨rest, hrest⟩ := hfront
  have hplain : ∀ s ∈ (splitOn Path.slash t).dropLast.takeWhile isFixed, ∀ u ∈ s, Glob.isPlain u = true := by
    intro s hs
    have hmem : s ∈ (splitOn Path.slash t).dropLast := (List.takeWhile_sublist _).mem hs
    have hfixed : isFixed s = true := List.mem_takeWhile_imp hs
    cases h.names s (List.mem_of_mem_dropLast hmem) with
    | inl hany => exact absurd hfixed (by rw [hany]; decide +kernel)
    | inr hwild => exact isPlain_of_isFixed hwild (hmarks s hmem) hfixed
  have hne : rest ≠ [] := by
    rintro rfl
    have hlength := congrArg List.length hrest
    have hshort := (List.takeWhile_sublist (l := (splitOn Path.slash t).dropLast) isFixed).length_le
    have hpos := List.length_pos_of_ne_nil (splitOn_ne_nil Path.slash t)
    rw [List.append_nil] at hlength
    rw [List.length_dropLast] at hshort
    omega
  rw [Glob.covers, ← hrest] at hcovers
  obtain ⟨below, hbelow, hpath⟩ := exists_below_of_coversNames hplain hne hcovers
  rw [Disk.isUnder, startsWith, List.isPrefixOf_iff_prefix, ← join_splitOn Path.slash path, hpath,
    join_append (by simpa using hnames) hbelow, ← List.append_assoc]
  exact List.prefix_append _ _

end Base
end GlobReader
end AnnotationIndex
