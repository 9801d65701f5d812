import Mathlib.Data.List.Basic
import AnnotationIndex.Text.Case
import AnnotationIndex.Proofs.LineKinds

/-!
Lower case and pieces of texts. A piece keeps its lower case wherever it stands, but for two things: a capital sigma
takes its form from the letters around it, and half of a surrogate pair becomes part of another character.
`infix_lower_iff` says for which pieces neither ever shows.
-/
namespace AnnotationIndex.Text

/-! ### Characters across a cut -/

def startsLow (t : Text) : Bool := t.head?.any isLowSurrogate
def endsHigh (t : Text) : Bool := t.getLast?.any isHighSurrogate

/-- A cut that does not go through a pair goes between characters. -/
theorem scalars_append {a b : Text} (h : endsHigh a = true → startsLow b = false) :
    scalars (a ++ b) = scalars a ++ scalars b := by
  fun_induction scalars a with
  | case1 => rfl
  | case2 u =>
    cases b with
    | nil => rfl
    | cons v b =>
      rw [List.singleton_append, scalars, if_neg]
      · rfl
      · simpa [endsHigh, startsLow] using h
  | case3 u v rest hp ih =>
    rw [List.cons_append, List.cons_append, scalars, if_pos hp, ih, List.cons_append]
    intro hr
    cases rest with
    | nil => simp [endsHigh] at hr
    | cons w rest => exact h (by simpa [endsHigh] using hr)
  | case4 u v rest hp ih =>
    rw [List.cons_append, List.cons_append, scalars, if_neg hp, ← List.cons_append, ih, List.cons_append]
    intro hr
    exact h (by simpa [endsHigh] using hr)

theorem scalars_singleton (u : UInt16) : scalars [u] = [u.toNat] := rfl

theorem scalars_pair {u v : UInt16} (hu : isHighSurrogate u = true) (hv : isLowSurrogate v = true) :
    scalars [u, v] = [joinPair u v] := by
  rw [scalars, if_pos (by simp [hu, hv])]
  rfl

theorem isHighSurrogate_iff {u : UInt16} : isHighSurrogate u = true ↔ 0xD800 ≤ u.toNat ∧ u.toNat ≤ 0xDBFF := by
  simp only [isHighSurrogate, Bool.and_eq_true, decide_eq_true_eq, UInt16.le_iff_toNat_le]
  rfl

theorem isLowSurrogate_iff {u : UInt16} : isLowSurrogate u = true ↔ 0xDC00 ≤ u.toNat ∧ u.toNat ≤ 0xDFFF := by
  simp only [isLowSurrogate, Bool.and_eq_true, decide_eq_true_eq, UInt16.le_iff_toNat_le]
  rfl

theorem not_low_of_high {u : UInt16} (h : isHighSurrogate u = true) : isLowSurrogate u = false := by
  rw [isHighSurrogate_iff] at h
  rw [Bool.eq_false_iff, ne_eq, isLowSurrogate_iff]
  omega

/-! ### Lower case in context -/

/-- Characters in lower case, where these stand before them (in reverse) and these behind. -/
def lowerIn (before after : List Nat) : List Nat → Text
  | [] => []
  | n :: rest => (lowerScalar before (rest ++ after) n).flatMap ofScalar ++ lowerIn (n :: before) after rest

theorem flatMap_lowerFrom (before ns : List Nat) : (lowerFrom before ns).flatMap ofScalar = lowerIn before [] ns := by
  induction ns generalizing before with
  | nil => rfl
  | cons n ns ih => rw [lowerFrom, List.flatMap_append, ih, lowerIn, List.append_nil]

theorem lower_eq (t : Text) : lower t = lowerIn [] [] (scalars t) := flatMap_lowerFrom ..

theorem lowerIn_append (before after ms ns : List Nat) :
    lowerIn before after (ms ++ ns) = lowerIn before (ns ++ after) ms ++ lowerIn (ms.reverse ++ before) after ns := by
  induction ms generalizing before with
  | nil => rfl
  | cons m ms ih => simp [lowerIn, ih]

def finalBetween (before after : List Nat) : Bool := meetsCased before && !meetsCased after

theorem lowerScalar_sigma (before after : List Nat) :
    lowerScalar before after capitalSigma = [if finalBetween before after then finalSigma else 0x3C3] := rfl

/-- No other character looks at what is around it. -/
theorem lowerScalar_of_ne {n : Nat} (h : n ≠ capitalSigma) (before after before' after' : List Nat) :
    lowerScalar before after n = lowerScalar before' after' n := by
  simp [lowerScalar, h]

theorem length_lowerScalar (before after before' after' : List Nat) (n : Nat) :
    ((lowerScalar before after n).flatMap ofScalar).length =
      ((lowerScalar before' after' n).flatMap ofScalar).length := by
  by_cases h : n = capitalSigma
  · subst h
    rw [lowerScalar_sigma, lowerScalar_sigma]
    split <;> split <;> rfl
  · rw [lowerScalar_of_ne h]

theorem length_lowerIn (before after before' after' ns : List Nat) :
    (lowerIn before after ns).length = (lowerIn before' after' ns).length := by
  induction ns generalizing before before' with
  | nil => rfl
  | cons n ns ih => rw [lowerIn, lowerIn, List.length_append, List.length_append, ih, length_lowerScalar]

theorem flatMap_lowerScalar_eq_iff (before after before' after' : List Nat) (n : Nat) :
    (lowerScalar before after n).flatMap ofScalar = (lowerScalar before' after' n).flatMap ofScalar ↔
      (n = capitalSigma → finalBetween before after = finalBetween before' after') := by
  by_cases h : n = capitalSigma
  · subst h
    rw [lowerScalar_sigma, lowerScalar_sigma]
    cases finalBetween before after <;> cases finalBetween before' after' <;> decide
  · simp [h, lowerScalar_of_ne h before after before' after']

/-- Lower case differs between two places exactly where a capital sigma does. -/
theorem lowerIn_eq_iff (before after before' after' ns : List Nat) :
    lowerIn before after ns = lowerIn before' after' ns ↔
    ∀ x y, ns = x ++ capitalSigma :: y → finalBetween (x.reverse ++ before) (y ++ after) =
      finalBetween (x.reverse ++ before') (y ++ after') := by
  induction ns generalizing before before' with
  | nil => simp [lowerIn]
  | cons n ns ih =>
    rw [lowerIn, lowerIn]
    constructor
    · intro h x y hxy
      obtain ⟨hn, hns⟩ := List.append_inj h (length_lowerScalar ..)
      rw [flatMap_lowerScalar_eq_iff] at hn
      rw [ih] at hns
      cases x with
      | nil =>
        obtain ⟨rfl, rfl⟩ := List.cons.inj hxy
        exact hn rfl
      | cons m x =>
        obtain ⟨rfl, hy⟩ := List.cons.inj hxy
        simpa using hns x y hy
    · intro h
      have hn :=
        (flatMap_lowerScalar_eq_iff before (ns ++ after) before' (ns ++ after') n).mpr fun hn => h [] ns
          (by rw [hn]; rfl)
      have hns := (ih (n :: before) (n :: before')).mpr fun x y hxy => by simpa using h (n :: x) y (by rw [hxy]; rfl)
      rw [hn, hns]

/-! ### When a text itself tells the form of its sigmas -/

theorem meetsCased_cons (n : Nat) (ns : List Nat) :
    meetsCased (n :: ns) = if isCaseIgnorable n then meetsCased ns else isCased n := by
  cases h : isCaseIgnorable n <;> simp [meetsCased, h]

/-- Whoever looks for a cased letter looks past a text only if all of it is passed over. -/
theorem meetsCased_append (ns ms : List Nat) :
    meetsCased (ns ++ ms) = if ns.all isCaseIgnorable then meetsCased ms else meetsCased ns := by
  induction ns with
  | nil => rfl
  | cons n ns ih =>
    rw [List.cons_append, meetsCased_cons, meetsCased_cons, ih, List.all_cons]
    cases isCaseIgnorable n <;> simp

theorem not_all_of_meetsCased {ns : List Nat} (h : meetsCased ns = true) : ns.all isCaseIgnorable = false := by
  cases ha : ns.all isCaseIgnorable with
  | false => rfl
  | true =>
    rw [meetsCased, List.dropWhile_eq_nil_iff.mpr (List.all_eq_true.mp ha)] at h
    exact h.symm

/-- A text tells the form of its capital sigmas, whatever stands around it: a cased letter comes behind each, or
something that is not passed over comes before it, and that is no cased letter or another such comes behind. -/
def Settled (ns : List Nat) : Prop := ∀ x y, ns = x ++ capitalSigma :: y →
  meetsCased y = true ∨ x.all isCaseIgnorable = false ∧ (meetsCased x.reverse = false ∨ y.all isCaseIgnorable = false)

theorem Settled.lowerIn_eq {ns : List Nat} (h : Settled ns) (before after : List Nat) :
    lowerIn before after ns = lowerIn [] [] ns := by
  refine (lowerIn_eq_iff ..).mpr fun x y hxy => ?_
  simp only [finalBetween, meetsCased_append, List.all_reverse, List.append_nil]
  obtain hy | ⟨hx, hx' | hy⟩ := h x y hxy
  · simp only [not_all_of_meetsCased hy, hy, Bool.false_eq_true, if_false, Bool.not_true, Bool.and_false]
  · simp only [hx, hx', Bool.false_eq_true, if_false, Bool.false_and]
  · simp only [hx, hy, Bool.false_eq_true, if_false]

/-- Where a text does not tell the form of a sigma, one cased letter before it or behind it changes that. -/
theorem settled_of_lowerIn_eq {ns : List Nat} {c : Nat} (hc : meetsCased [c] = true)
    (hbefore : lowerIn [c] [] ns = lowerIn [] [] ns) (hafter : lowerIn [] [c] ns = lowerIn [] [] ns) : Settled ns := by
  intro x y hxy
  have hb := (lowerIn_eq_iff ..).mp hbefore x y hxy
  have ha := (lowerIn_eq_iff ..).mp hafter x y hxy
  simp only [finalBetween, meetsCased_append, List.all_reverse, List.append_nil, hc] at ha hb
  cases hy : meetsCased y with
  | true => exact .inl rfl
  | false =>
    cases hx : x.all isCaseIgnorable with
    | true =>
      have hx' : meetsCased x.reverse = false :=
        Bool.eq_false_iff.mpr fun h => by
          simpa only [List.all_reverse, hx, Bool.true_eq_false] using not_all_of_meetsCased h
      simp [hx, hx', hy] at hb
    | false =>
      refine .inr ⟨rfl, ?_⟩
      cases hx' : meetsCased x.reverse with
      | false => exact .inl rfl
      | true =>
        refine .inr (Bool.eq_false_iff.mpr fun h => ?_)
        simp [hx', hy, h] at ha

/-! ### Halves of pairs -/

/-- The rows of the mapping leave surrogates alone and keep to their side of the basic plane. -/
theorem lowerRows_planes : ∀ r ∈ lowerRows.toList, (r.2.1 < 0xD800 ∨ 0xDFFF < r.1) ∧
    (0xFFFF < r.2.1 → 0xFFFF < r.1 ∧ 0 ≤ r.2.2.2 ∧ r.2.1 + r.2.2.2 ≤ 0x10FFFF) := by decide +kernel

theorem mapRows_surrogate {n : Nat} (h : 0xD800 ≤ n) (h' : n ≤ 0xDFFF) : mapRows lowerRows n = n := by
  rw [mapRows, Array.find?_eq_none.mpr]
  rintro ⟨a, b, step, d⟩ hr hn
  have hrow := (lowerRows_planes _ (Array.mem_toList_iff.mpr hr)).1
  simp only [Bool.and_eq_true, decide_eq_true_eq] at hrow hn
  omega

theorem mapRows_astral {n : Nat} (h : 0x10000 ≤ n) (h' : n ≤ 0x10FFFF) :
    0x10000 ≤ mapRows lowerRows n ∧ mapRows lowerRows n ≤ 0x10FFFF := by
  rw [mapRows]
  split
  · next a b step d hr =>
    have hd := (lowerRows_planes _ (Array.mem_toList_iff.mpr (Array.mem_of_find?_eq_some hr))).2
    have hn := Array.find?_some hr
    simp only [Bool.and_eq_true, decide_eq_true_eq] at hd hn
    omega
  · exact ⟨h, h'⟩

theorem lowerScalar_surrogate {n : Nat} (h : 0xD800 ≤ n) (h' : n ≤ 0xDFFF) (before after : List Nat) :
    lowerScalar before after n = [n] := by
  rw [lowerScalar, if_neg (by omega), if_neg (by omega), if_neg (by rw [capitalSigma]; omega), mapRows_surrogate h h']

theorem ofScalar_astral {n : Nat} (h : 0x10000 ≤ n) (h' : n ≤ 0x10FFFF) :
    ∃ u v, ofScalar n = [u, v] ∧ isHighSurrogate u = true ∧ isLowSurrogate v = true := by
  refine ⟨_, _, if_neg (by omega), ?_, ?_⟩
  · rw [isHighSurrogate_iff, Nat.toUInt16_eq, UInt16.toNat_ofNat']
    omega
  · rw [isLowSurrogate_iff, Nat.toUInt16_eq, UInt16.toNat_ofNat']
    omega

def CutPair (a b : Text) : Prop :=
  a = [] ∧ b = [] ∨ ∃ u v, a = [u] ∧ b = [v] ∧ isHighSurrogate u = true ∧ isLowSurrogate v = true

theorem joinPair_bounds {u v : UInt16} (hu : isHighSurrogate u = true) (hv : isLowSurrogate v = true) :
    0x10000 ≤ joinPair u v ∧ joinPair u v ≤ 0x10FFFF := by
  have hu := isHighSurrogate_iff.mp hu
  have hv := isLowSurrogate_iff.mp hv
  unfold joinPair
  omega

/-- A half alone is its own lower case. -/
theorem lowerIn_half {u : UInt16} (h : 0xD800 ≤ u.toNat) (h' : u.toNat ≤ 0xDFFF) (before after : List Nat) :
    lowerIn before after (scalars [u]) = [u] := by
  rw [scalars_singleton, lowerIn, lowerScalar_surrogate h h', lowerIn, List.flatMap_singleton, List.append_nil,
    ofScalar, if_pos (by omega), Nat.toUInt16_eq, UInt16.ofNat_toNat]

namespace CutPair
variable {a b : Text} (h : CutPair a b)
include h

theorem endsHigh_right : endsHigh b = false ∧ endsHigh (a ++ b) = false := by
  obtain ⟨rfl, rfl⟩ | ⟨u, v, rfl, rfl, -, hv⟩ := h
  · exact ⟨rfl, rfl⟩
  · have hv' : isHighSurrogate v = false := Bool.eq_false_iff.mpr fun hu => by simp [not_low_of_high hu] at hv
    simp [endsHigh, hv']

theorem startsLow_left : startsLow a = false ∧ startsLow (a ++ b) = false := by
  obtain ⟨rfl, rfl⟩ | ⟨u, v, rfl, rfl, hu, -⟩ := h
  · exact ⟨rfl, rfl⟩
  · simp [startsLow, not_low_of_high hu]

theorem lowerIn_left (before after : List Nat) : lowerIn before after (scalars a) = a := by
  obtain ⟨rfl, rfl⟩ | ⟨u, v, rfl, rfl, hu, hv⟩ := h
  · rfl
  · have := isHighSurrogate_iff.mp hu
    exact lowerIn_half (by omega) (by omega) before after

theorem lowerIn_right (before after : List Nat) : lowerIn before after (scalars b) = b := by
  obtain ⟨rfl, rfl⟩ | ⟨u, v, rfl, rfl, hu, hv⟩ := h
  · rfl
  · have := isLowSurrogate_iff.mp hv
    exact lowerIn_half (by omega) (by omega) before after

/-- The pair in lower case is a pair again, and the same wherever it stands. -/
theorem lowerIn_join : ∃ x y, x.length = a.length ∧ y.length = b.length ∧ (∀ c ∈ x, isHighSurrogate c = true) ∧
    (∀ c ∈ y, isLowSurrogate c = true) ∧ ∀ before after, lowerIn before after (scalars (a ++ b)) = x ++ y := by
  obtain ⟨rfl, rfl⟩ | ⟨u, v, rfl, rfl, hu, hv⟩ := h
  · exact ⟨[], [], rfl, rfl, by simp, by simp, fun _ _ => rfl⟩
  · obtain ⟨hj, hj'⟩ := joinPair_bounds hu hv
    obtain ⟨hm, hm'⟩ := mapRows_astral hj hj'
    obtain ⟨x, y, hxy, hx, hy⟩ := ofScalar_astral hm hm'
    refine ⟨[x], [y], rfl, rfl, by simpa using hx, by simpa using hy, fun before after => ?_⟩
    rw [List.singleton_append, scalars_pair hu hv, lowerIn, lowerIn, List.append_nil, lowerScalar, if_neg (by omega),
      if_neg (by omega), if_neg (by rw [capitalSigma]; omega), List.flatMap_singleton, hxy]
    rfl

end CutPair

theorem scalars_append₃ {a m z : Text} (ha : endsHigh a = false) (hz : startsLow z = false) :
    scalars (a ++ m ++ z) = scalars a ++ scalars m ++ scalars z := by
  rw [scalars_append (by simp [hz]), scalars_append (by simp [ha])]

/-- The halves that stand right before and right behind a text and are joined with its first and its last unit. -/
structure Completes (g p h : Text) : Prop where
  before : g = [] ∨ ∃ u, g = [u] ∧ isHighSurrogate u = true ∧ startsLow p = true
  after : h = [] ∨ ∃ v, h = [v] ∧ isLowSurrogate v = true ∧ endsHigh p = true

theorem exists_of_startsLow {t : Text} (h : startsLow t = true) :
    ∃ v rest, t = v :: rest ∧ isLowSurrogate v = true := by
  cases t with
  | nil => cases h
  | cons v rest => exact ⟨v, rest, rfl, h⟩

theorem exists_of_endsHigh {t : Text} (h : endsHigh t = true) :
    ∃ front u, t = front ++ [u] ∧ isHighSurrogate u = true := by
  obtain rfl | ⟨front, u, rfl⟩ := t.eq_nil_or_concat'
  · cases h
  · exact ⟨front, u, rfl, by simpa [endsHigh] using h⟩

theorem Completes.split {g p h : Text} (hc : Completes g p h) :
    ∃ a m z, p = a ++ m ++ z ∧ CutPair g a ∧ CutPair z h := by
  obtain rfl | ⟨u, rfl, hu, hp⟩ := hc.before
  · obtain rfl | ⟨v, rfl, hv, hp'⟩ := hc.after
    · exact ⟨[], p, [], by simp, .inl ⟨rfl, rfl⟩, .inl ⟨rfl, rfl⟩⟩
    · obtain ⟨m, w, rfl, hw⟩ := exists_of_endsHigh hp'
      exact ⟨[], m, [w], rfl, .inl ⟨rfl, rfl⟩, .inr ⟨w, v, rfl, rfl, hw, hv⟩⟩
  · obtain ⟨l, rest, rfl, hl⟩ := exists_of_startsLow hp
    have hcut : CutPair [u] [l] := .inr ⟨u, l, rfl, rfl, hu, hl⟩
    obtain rfl | ⟨v, rfl, hv, hp'⟩ := hc.after
    · exact ⟨[l], rest, [], by simp, hcut, .inl ⟨rfl, rfl⟩⟩
    · obtain rfl | ⟨m, w, rfl⟩ := rest.eq_nil_or_concat'
      · simp [hcut.endsHigh_right.1] at hp'
      · rw [endsHigh, ← List.cons_append, List.getLast?_concat] at hp'
        exact ⟨[l], m, [w], rfl, hcut, .inr ⟨w, v, rfl, rfl, hp', hv⟩⟩

/-- A text with its halves in lower case: what becomes of the halves is the same everywhere, and between them stands
what is as long as the lower case of the text alone. -/
theorem Completes.lowerIn_eq {g p h : Text} (hc : Completes g p h) : ∃ x y, x.length = g.length ∧ y.length = h.length ∧
    (∀ c ∈ (lower p).head?, c ∉ x) ∧ (∀ c ∈ (lower p).getLast?, c ∉ y) ∧
    ∀ before after, ∃ m, lowerIn before after (scalars (g ++ p ++ h)) = x ++ m ++ y ∧ m.length = (lower p).length := by
  obtain ⟨a, m, z, rfl, hga, hzh⟩ := hc.split
  obtain ⟨x, x', hx, hx', hxh, -, hleft⟩ := hga.lowerIn_join
  obtain ⟨y', y, hy', hy, -, hyl, hright⟩ := hzh.lowerIn_join
  have hlower :
      ∃ m', lower (a ++ m ++ z) = a ++ m' ++ z ∧
        ∀ before after, (lowerIn before after (scalars m)).length = m'.length := by
    rw [lower_eq, scalars_append₃ hga.endsHigh_right.1 hzh.startsLow_left.1, lowerIn_append, lowerIn_append,
      hga.lowerIn_right, hzh.lowerIn_left]
    exact ⟨_, rfl, fun before after => length_lowerIn ..⟩
  obtain ⟨m', hlower, hlen⟩ := hlower
  rw [hlower]
  refine ⟨x, y, hx, hy, fun c hc hcx => ?_, fun c hc hcy => ?_, fun before after => ?_⟩
  · obtain ⟨rfl, -⟩ | ⟨u, v, -, rfl, -, hv⟩ := hga
    · simp [List.eq_nil_of_length_eq_zero hx] at hcx
    · obtain rfl : v = c := by simpa using hc
      exact absurd hv (by simp [not_low_of_high (hxh v hcx)])
  · obtain ⟨-, rfl⟩ | ⟨u, v, rfl, -, hu, -⟩ := hzh
    · simp [List.eq_nil_of_length_eq_zero hy] at hcy
    · obtain rfl : u = c := by simpa using hc
      exact absurd (hyl u hcy) (by simp [not_low_of_high hu])
  · have hassoc : g ++ (a ++ m ++ z) ++ h = (g ++ a) ++ m ++ (z ++ h) := by simp
    rw [hassoc, scalars_append₃ hga.endsHigh_right.2 hzh.startsLow_left.2, lowerIn_append, lowerIn_append, hleft,
      hright]
    have hm := hlen ((scalars (g ++ a)).reverse ++ before) (scalars (z ++ h) ++ after)
    generalize lowerIn _ _ (scalars m) = w at hm ⊢
    exact ⟨x' ++ w ++ y', by simp only [List.append_assoc], by simp [hx', hy', hm]⟩

/-! ### A letter for comparison -/

theorem mem_inRows {rows : Array (Nat × Nat)} {n : Nat} :
    inRows rows n = true ↔ ∃ r ∈ rows.toList, r.1 ≤ n ∧ n ≤ r.2 := by
  simp [inRows, ← Array.any_toList]

theorem meetsCased_letter {n : Nat} (h : 97 ≤ n) (h' : n ≤ 122) : meetsCased [n] = true := by
  have hpassed : ∀ r ∈ caseIgnorableRows.toList, r.2 < 97 ∨ 122 < r.1 := by decide +kernel
  have hcased : isCased n = true := mem_inRows.mpr ⟨(97, 122), by decide +kernel, h, h'⟩
  have hignored : isCaseIgnorable n = false := by
    refine Bool.eq_false_iff.mpr fun hn => ?_
    obtain ⟨r, hr, hlo, hhi⟩ := mem_inRows.mp hn
    have := hpassed r hr
    omega
  rw [meetsCased_cons, hignored, hcased]
  rfl

/-- Some letter is neither of two units; letters stand alone, and a sigma sees them. -/
theorem exists_letter (p q : Option UInt16) :
    ∃ c : UInt16, c ∉ p ∧ c ∉ q ∧ isHighSurrogate c = false ∧ isLowSurrogate c = false ∧
    meetsCased [c.toNat] = true ∧ ∀ before after, lowerIn before after [c.toNat] = [c] := by
  have letters : ∀ c ∈ [(0x61 : UInt16), 0x62, 0x63], isHighSurrogate c = false ∧ isLowSurrogate c = false ∧
      (97 ≤ c.toNat ∧ c.toNat ≤ 122) ∧ ∀ before after, lowerIn before after [c.toNat] = [c] := by
    simp only [List.forall_mem_cons]
    exact ⟨⟨rfl, rfl, by decide, fun _ _ => rfl⟩, ⟨rfl, rfl, by decide, fun _ _ => rfl⟩,
      ⟨rfl, rfl, by decide, fun _ _ => rfl⟩, by simp⟩
  have hne : ∃ c ∈ [(0x61 : UInt16), 0x62, 0x63], ¬ p = some c ∧ ¬ q = some c := by
    by_contra hno
    have hpq (c : UInt16) (hc : c ∈ [(0x61 : UInt16), 0x62, 0x63]) : p = some c ∨ q = some c :=
      or_iff_not_and_not.mpr fun h => hno ⟨c, hc, h⟩
    obtain ha | ha := hpq 0x61 (by simp) <;> obtain hb | hb := hpq 0x62 (by simp) <;>
      obtain hc | hc := hpq 0x63 (by simp) <;> simp_all
  obtain ⟨c, hc, hp, hq⟩ := hne
  obtain ⟨hhigh, hlow, hbounds, hlower⟩ := letters c hc
  exact ⟨c, hp, hq, hhigh, hlow, meetsCased_letter hbounds.1 hbounds.2, hlower⟩

/-- A piece as long as the one between two edges is that one, if neither its first nor its last unit is found in the
edges. -/
theorem eq_of_infix_between {x m y p : Text} (h : p <:+: x ++ m ++ y) (hl : m.length = p.length)
    (hx : ∀ c ∈ p.head?, c ∉ x) (hy : ∀ c ∈ p.getLast?, c ∉ y) : m = p := by
  by_cases hp : p = []
  · rw [hp] at hl ⊢
    exact List.eq_nil_of_length_eq_zero hl
  obtain ⟨s, t, h⟩ := h
  rw [List.append_assoc, List.append_assoc] at h
  obtain ⟨w, rfl, hw⟩ | ⟨w, rfl, hw⟩ := List.append_eq_append_iff.mp h
  · -- what stands before the piece is the start of the edge; if it is not all, the first unit is in the edge
    obtain ⟨c, p, rfl⟩ := List.exists_cons_of_ne_nil hp
    cases w with
    | nil => exact (List.append_inj (by simpa using hw) hl.symm).1.symm
    | cons d w => exact absurd (by simp [(List.cons.inj hw).1]) (hx c rfl)
  · -- what stands before the piece goes on behind the edge; if it does, the last unit is in the other one
    rw [← List.append_assoc] at hw
    obtain ⟨v, hv, rfl⟩ | ⟨v, hv, -⟩ := List.append_eq_append_iff.mp hw
    · obtain rfl | ⟨v, d, rfl⟩ := v.eq_nil_or_concat'
      · have := congrArg List.length hv
        simp only [List.length_append, List.length_nil] at this
        obtain rfl := List.eq_nil_of_length_eq_zero (l := w) (by omega)
        simpa using hv.symm
      · have hlast : p.getLast? = some d := by
          rw [← List.getLast?_append_of_ne_nil w hp, hv, ← List.append_assoc, List.getLast?_concat]
        exact absurd (by simp) (hy d hlast)
    · have := congrArg List.length hv
      simp only [List.length_append] at this
      obtain rfl := List.eq_nil_of_length_eq_zero (l := w) (by omega)
      obtain rfl := List.eq_nil_of_length_eq_zero (l := v) (by omega)
      simpa using hv

/-! ### Pieces that keep their lower case -/

/-- A text keeps its lower case wherever it stands: whichever halves may be joined with it, the form of its sigmas
is told, and its lower case stands between what becomes of the halves. -/
def Steady (p : Text) : Prop := ∀ g h, Completes g p h → Settled (scalars (g ++ p ++ h)) ∧
  ∃ x y, x.length = g.length ∧ y.length = h.length ∧ lower (g ++ p ++ h) = x ++ lower p ++ y

theorem steady_of_infix_lower {p : Text} (h : ∀ t, p <:+: t → lower p <:+: lower t) : Steady p := by
  intro g k hc
  obtain ⟨x, y, hx, hy, hhead, hlast, hbetween⟩ := hc.lowerIn_eq
  have hq (s t : Text) : p <:+: s ++ (g ++ p ++ k) ++ t := ⟨s ++ g, k ++ t, by simp⟩
  -- alone with its halves
  obtain ⟨m, hm, hlen⟩ := hbetween [] []
  obtain rfl : m = lower p := by
    have := h _ (hq [] [])
    rw [List.nil_append, List.append_nil, lower_eq (g ++ p ++ k), hm] at this
    exact eq_of_infix_between this hlen hhead hlast
  obtain ⟨c, hchead, hclast, hhigh, hlow, hmeets, hletter⟩ := exists_letter (lower p).head? (lower p).getLast?
  refine ⟨settled_of_lowerIn_eq hmeets ?_ ?_, x, y, hx, hy, by rw [lower_eq (g ++ p ++ k), hm]⟩
  · -- with a letter before
    obtain ⟨m', hm', hlen'⟩ := hbetween [c.toNat] []
    have := h _ (hq [c] [])
    rw [List.append_nil, lower_eq ([c] ++ _), scalars_append (by simp [endsHigh, hhigh]), scalars_singleton,
      lowerIn_append, hletter, List.reverse_singleton, List.append_nil, hm', ← List.append_assoc,
      ← List.append_assoc] at this
    rw [hm, hm', eq_of_infix_between this hlen' ?_ hlast]
    intro d hd
    rw [List.mem_append, List.mem_singleton, not_or]
    exact ⟨fun hdc => hchead (hdc ▸ hd), hhead d hd⟩
  · -- with a letter behind
    obtain ⟨m', hm', hlen'⟩ := hbetween [] [c.toNat]
    have := h _ (hq [] [c])
    rw [List.nil_append, lower_eq (_ ++ [c]), scalars_append (by simp [startsLow, hlow]), scalars_singleton,
      lowerIn_append, hletter, List.append_nil, hm', List.append_assoc (x ++ m')] at this
    rw [hm, hm', eq_of_infix_between this hlen' hhead ?_]
    intro d hd
    rw [List.mem_append, List.mem_singleton, not_or]
    exact ⟨hlast d hd, fun hdc => hclast (hdc ▸ hd)⟩

/-- The half that a text in front of `p` may leave over for it. -/
theorem exists_before (s : Text) {p : Text} (hp : p ≠ []) : ∃ s' g, s = s' ++ g ∧
    (g = [] ∨ ∃ u, g = [u] ∧ isHighSurrogate u = true ∧ startsLow p = true) ∧
    ∀ t, endsHigh s' = true → startsLow (g ++ p ++ t) = false := by
  obtain ⟨c, rest, rfl⟩ := List.exists_cons_of_ne_nil hp
  by_cases h : endsHigh s = true ∧ startsLow (c :: rest) = true
  · obtain ⟨s', u, rfl, hu⟩ := exists_of_endsHigh h.1
    exact ⟨s', [u], rfl, .inr ⟨u, rfl, hu, h.2⟩, fun _ _ => not_low_of_high hu⟩
  · exact ⟨s, [], by simp, .inl rfl, fun _ hs => Bool.eq_false_iff.mpr fun hl => h ⟨hs, hl⟩⟩

/-- The half that a text behind `p` may leave over for it. -/
theorem exists_after {p : Text} (hp : p ≠ []) (t : Text) : ∃ h t', t = h ++ t' ∧
    (h = [] ∨ ∃ v, h = [v] ∧ isLowSurrogate v = true ∧ endsHigh p = true) ∧
    ∀ g, endsHigh (g ++ p ++ h) = true → startsLow t' = false := by
  by_cases h : endsHigh p = true ∧ startsLow t = true
  · obtain ⟨v, t', rfl, hv⟩ := exists_of_startsLow h.2
    refine ⟨[v], t', rfl, .inr ⟨v, rfl, hv, h.1⟩, fun g hg => ?_⟩
    rw [endsHigh, List.getLast?_concat] at hg
    simp [not_low_of_high hg] at hv
  · refine ⟨[], t, rfl, .inl rfl, fun g hg => Bool.eq_false_iff.mpr fun hl => h ⟨?_, hl⟩⟩
    rwa [endsHigh, List.append_nil, List.getLast?_append_of_ne_nil g hp] at hg

theorem Steady.infix_lower {p t : Text} (hp : Steady p) (h : p <:+: t) : lower p <:+: lower t := by
  by_cases hnil : p = []
  · subst hnil
    exact List.nil_infix
  obtain ⟨s, r, rfl⟩ := h
  obtain ⟨s', g, rfl, hg, hleft⟩ := exists_before s hnil
  obtain ⟨k, r', rfl, hk, hright⟩ := exists_after hnil r
  obtain ⟨hsettled, x, y, -, -, hlower⟩ := hp g k ⟨hg, hk⟩
  have hassoc : s' ++ g ++ p ++ (k ++ r') = s' ++ ((g ++ p ++ k) ++ r') := by simp
  have hscalars : scalars (s' ++ g ++ p ++ (k ++ r')) = scalars s' ++ (scalars (g ++ p ++ k) ++ scalars r') := by
    rw [hassoc, scalars_append, scalars_append (hright g)]
    intro hs
    rw [List.append_assoc (g ++ p)]
    exact hleft _ hs
  rw [lower_eq (s' ++ g ++ p ++ (k ++ r')), hscalars, lowerIn_append, lowerIn_append, hsettled.lowerIn_eq, ← lower_eq,
    hlower]
  exact ⟨_ ++ x, y ++ _, by simp only [List.append_assoc]; rfl⟩

/-- The pieces whose lower case is found wherever they are found. -/
theorem steady_iff {p : Text} : Steady p ↔ ∀ t, p <:+: t → lower p <:+: lower t :=
  ⟨fun h _ => h.infix_lower, steady_of_infix_lower⟩

theorem settled_of_not_mem {ns : List Nat} (h : capitalSigma ∉ ns) : Settled ns :=
  fun x y hxy => absurd (by simp [hxy]) h

/-- Where no half of a pair stands at the ends of a text, only its sigmas count. -/
theorem steady_iff_settled {p : Text} (hlow : startsLow p = false) (hhigh : endsHigh p = false) :
    Steady p ↔ Settled (scalars p) := by
  constructor
  · intro h
    simpa using (h [] [] ⟨.inl rfl, .inl rfl⟩).1
  · rintro hsettled g h ⟨rfl | ⟨_, _, _, hp⟩, rfl | ⟨_, _, _, hp'⟩⟩
    · exact ⟨by simpa using hsettled, [], [], rfl, rfl, by simp⟩
    all_goals simp_all

example : Steady "Purpose of Alpha" := (steady_iff_settled rfl rfl).mpr (settled_of_not_mem (by decide))

end AnnotationIndex.Text
