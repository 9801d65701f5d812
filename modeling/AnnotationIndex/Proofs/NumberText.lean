import AnnotationIndex.Json.Print
import AnnotationIndex.Json.Read
import AnnotationIndex.Proofs.ShortestDecimal

/-!
Numbers read back from their text.
-/
namespace AnnotationIndex

section Digits
open AnnotationIndex.Text (unit isDigit)
open AnnotationIndex.Number (digitsValue zeros)
variable {c : Char} {u : UInt16} {d n : Nat} {t : Text}

theorem Text.toNat_unit_digit (h : c.isDigit = true) : (unit c).toNat = c.toNat := by
  have hsmall : c.toNat < 65536 := by
    have hnine : '9'.toNat = 57 := rfl
    have := (Char.isDigit_iff_toNat.mp h).2
    omega
  exact Nat.mod_eq_of_lt hsmall

theorem Text.isDigit_unit (h : c.isDigit = true) : isDigit (unit c) = true := by
  have hvalue := toNat_unit_digit h
  have hrange := Char.isDigit_iff_toNat.mp h
  simp only [isDigit, Bool.and_eq_true, decide_eq_true_eq, UInt16.le_iff_toNat_le, hvalue]
  exact hrange

theorem Text.isDigit_of_mem_ofNat (h : u ∈ Text.ofNat n) : isDigit u = true := by
  obtain ⟨c, hc, rfl⟩ := List.mem_map.mp h
  exact isDigit_unit (Nat.isDigit_of_mem_toDigits (by decide) (by decide) hc)

theorem Text.ofNat_ne_nil : Text.ofNat n ≠ [] := by
  rw [Text.ofNat, ne_eq, List.map_eq_nil_iff]
  exact Nat.toDigits_ne_nil

theorem Number.digitsValue_ofNat (n : Nat) : digitsValue (Text.ofNat n) = n := by
  have hfold (l : List Char) (hl : ∀ c ∈ l, c.isDigit = true) (init : Nat) :
      (l.map unit).foldl (fun n u => n * 10 + (u.toNat - 48)) init = Nat.ofDigitChars 10 l init := by
    induction l generalizing init with
    | nil => rfl
    | cons c l ih =>
      rw [List.map_cons, List.foldl_cons, ih (fun c hc => hl c (List.mem_cons_of_mem _ hc)), Nat.ofDigitChars_cons,
        Text.toNat_unit_digit (hl c List.mem_cons_self), Nat.mul_comm]
      rfl
  rw [digitsValue, Text.ofNat, hfold _ fun c hc => Nat.isDigit_of_mem_toDigits (by decide) (by decide) hc]
  exact Nat.ofDigitChars_ten_toDigits

theorem Number.digitsValue_append_zeros (t : Text) (k : Nat) : digitsValue (t ++ zeros k) = digitsValue t * 10 ^ k := by
  induction k with
  | zero => simp [zeros]
  | succ k ih =>
    rw [zeros, List.replicate_succ', ← List.append_assoc, digitsValue, List.foldl_append, ← digitsValue]
    rw [zeros] at ih
    rw [ih, Nat.pow_succ, ← Nat.mul_assoc]
    rfl

theorem Number.digitsValue_zeros_append (k : Nat) (t : Text) : digitsValue (zeros k ++ t) = digitsValue t := by
  rw [digitsValue, List.foldl_append, ← digitsValue, ← List.nil_append (zeros k), digitsValue_append_zeros]
  rw [show digitsValue [] = 0 from rfl, Nat.zero_mul, digitsValue]

/-- The digits of a positive number do not open with a zero. -/
theorem Text.head?_ofNat (h : 0 < d) : (Text.ofNat d).head? ≠ some (unit '0') := by
  induction d using Nat.strongRecOn with
  | ind d ih =>
    rcases Nat.lt_or_ge d 10 with hlt | hge
    · have hdigit : ∀ d < 10, 0 < d → unit d.digitChar ≠ unit '0' := by decide
      rw [Text.ofNat, Nat.toDigits_of_lt_base hlt]
      exact fun h' => hdigit d hlt h (Option.some.inj h')
    · rw [Text.ofNat, Nat.toDigits_of_base_le (by decide) hge, List.map_append, ← Text.ofNat,
        List.head?_append_of_ne_nil _ Text.ofNat_ne_nil]
      exact ih (d / 10) (by omega) (by omega)

end Digits

namespace Json
open AnnotationIndex.Text (unit isDigit)
open AnnotationIndex.Number (digitsValue zeros ofDecimal ofParts layout)

def Ends (rest : Text) : Prop :=
  ∀ u ∈ rest.head?, isDigit u = false ∧ u ≠ unit '.' ∧ u ≠ unit 'e' ∧ u ≠ unit 'E'

theorem ends_cons {u : UInt16} {rest : Text} (h : isDigit u = false ∧ u ≠ unit '.' ∧ u ≠ unit 'e' ∧ u ≠ unit 'E') :
    Ends (u :: rest) := by
  intro v hv
  obtain rfl := Option.some.inj hv
  exact h

structure ReadsBack (n : Number) : Prop where
  opens : ∃ u s, numberText n = u :: s ∧ (isDigit u = true ∨ u = unit '-')
  read : ∀ rest, Ends rest → readNumber (numberText n ++ rest) = some (n, rest)

section Parts
variable {whole fraction mark after rest : Text} {exponent : Int}

def EndsDigits (rest : Text) : Prop := ∀ u ∈ rest.head?, isDigit u = false

theorem Ends.digits (h : Ends rest) : EndsDigits rest := fun u hu => (h u hu).1

theorem takeWhile_digits (hdigits : ∀ u ∈ whole, isDigit u = true) (hrest : EndsDigits rest) :
    (whole ++ rest).takeWhile isDigit = whole := by
  rw [List.takeWhile_append_of_pos hdigits]
  cases rest with
  | nil => simp
  | cons u rest => simp [hrest u rfl]

theorem dropWhile_digits (hdigits : ∀ u ∈ whole, isDigit u = true) (hrest : EndsDigits rest) :
    (whole ++ rest).dropWhile isDigit = rest := by
  rw [List.dropWhile_append_of_pos hdigits]
  cases rest with
  | nil => simp
  | cons u rest => simp [hrest u rfl]

theorem readFraction_none (h : ∀ u ∈ rest.head?, u ≠ unit '.') : readFraction rest = some ([], rest) := by
  cases rest with
  | nil => rfl
  | cons u rest => simp [readFraction, h u rfl]

theorem readFraction_point (hne : fraction ≠ []) (hdigits : ∀ u ∈ fraction, isDigit u = true)
    (hrest : EndsDigits rest) : readFraction (unit '.' :: (fraction ++ rest)) = some (fraction, rest) := by
  simp [readFraction, takeWhile_digits hdigits hrest, dropWhile_digits hdigits hrest, hne]

theorem readExponent_none (h : Ends rest) : readExponent rest = some (0, rest) := by
  cases rest with
  | nil => rfl
  | cons u rest => simp [readExponent, (h u rfl).2.2]

theorem readExponent_mark (x : Int) (h : Ends rest) :
    readExponent ([unit 'e', if x < 0 then unit '-' else unit '+'] ++ Text.ofNat x.natAbs ++ rest) =
      some (x, rest) := by
  have htake := takeWhile_digits (fun u => Text.isDigit_of_mem_ofNat (n := x.natAbs)) h.digits
  have hdrop := dropWhile_digits (fun u => Text.isDigit_of_mem_ofNat (n := x.natAbs)) h.digits
  rcases lt_or_ge x 0 with hx | hx
  · simp [readExponent, hx, htake, hdrop, Text.ofNat_ne_nil, Number.digitsValue_ofNat, abs_of_neg hx]
  · have hplus : unit '+' ≠ unit '-' := by decide
    simp [readExponent, not_lt.mpr hx, hplus, htake, hdrop, Text.ofNat_ne_nil, Number.digitsValue_ofNat]
    omega

theorem readNumber_parts {negative : Bool} (hne : whole ≠ []) (hdigits : ∀ u ∈ whole, isDigit u = true)
    (hlead : whole.length = 1 ∨ whole.head? ≠ some (unit '0')) (hafter : EndsDigits after)
    (hfraction : readFraction after = some (fraction, mark)) (hexponent : readExponent mark = some (exponent, rest)) :
    readNumber ((if negative then [unit '-'] else []) ++ (whole ++ after)) =
      some (ofParts negative whole fraction exponent, rest) := by
  have htake := takeWhile_digits hdigits hafter
  have hdrop := dropWhile_digits hdigits hafter
  have hguard : (whole.isEmpty || (decide (whole.length > 1) && whole.head? == some (unit '0'))) = false := by
    rw [Bool.or_eq_false_iff, Bool.and_eq_false_iff, List.isEmpty_eq_false_iff, decide_eq_false_iff_not,
      beq_eq_false_iff_ne]
    exact ⟨hne, hlead.imp_left (by omega)⟩
  cases negative with
  | true =>
    simp only [if_true, List.singleton_append, readNumber, beq_self_eq_true]
    rw [htake, hdrop, hguard]
    simp [hfraction, hexponent]
  | false =>
    obtain ⟨u, more, rfl⟩ := List.exists_cons_of_ne_nil hne
    have hsign : (u == unit '-') = false := by
      refine beq_eq_false_iff_ne.mpr fun h => ?_
      have hu := hdigits u List.mem_cons_self
      rw [h] at hu
      exact absurd hu (by decide)
    rw [if_neg Bool.false_ne_true, List.nil_append]
    simp only [readNumber, List.cons_append, hsign, Bool.false_eq_true, if_false]
    rw [← List.cons_append, htake, hdrop, hguard]
    simp [hfraction, hexponent]

end Parts

structure Spells (t : Text) (digits : Nat) (exponent : Int) : Prop where
  opens : ∃ u s, t = u :: s ∧ isDigit u = true
  read : ∀ negative rest, Ends rest →
    readNumber ((if negative then [unit '-'] else []) ++ (t ++ rest)) = some (ofDecimal negative digits exponent, rest)

section Layout
variable {d : Nat} {x : Int}

theorem isDigit_of_mem_zeros {u : UInt16} {n : Nat} (h : u ∈ zeros n) : isDigit u = true := by
  rw [List.eq_of_mem_replicate h]
  decide

theorem endsDigits_point (t : Text) : EndsDigits (unit '.' :: t) := by
  intro u hu
  obtain rfl := Option.some.inj hu
  decide

theorem opens_append {whole after : Text} (hne : whole ≠ []) (hdigits : ∀ u ∈ whole, isDigit u = true) :
    ∃ u s, whole ++ after = u :: s ∧ isDigit u = true := by
  obtain ⟨u, more, rfl⟩ := List.exists_cons_of_ne_nil hne
  exact ⟨u, more ++ after, rfl, hdigits u List.mem_cons_self⟩

structure Mark (mark : Text) (exponent : Int) : Prop where
  read : ∀ rest, Ends rest → readExponent (mark ++ rest) = some (exponent, rest)
  ends : ∀ rest, Ends rest → ∀ u ∈ (mark ++ rest).head?, isDigit u = false ∧ u ≠ unit '.'

theorem mark_nil : Mark [] 0 where
  read _ h := readExponent_none h
  ends _ h u hu := ⟨(h u hu).1, (h u hu).2.1⟩

theorem mark_exponent (x : Int) : Mark ([unit 'e', if x < 0 then unit '-' else unit '+'] ++ Text.ofNat x.natAbs) x where
  read _ h := readExponent_mark x h
  ends _ _ u hu := by
    obtain rfl := Option.some.inj hu
    decide

section Forms
variable {whole fraction mark : Text} (hne : whole ≠ []) (hdigits : ∀ u ∈ whole, isDigit u = true)
  (hlead : whole.length = 1 ∨ whole.head? ≠ some (unit '0')) (hmark : Mark mark x)
include hne hdigits hlead hmark

theorem spells_digits : Spells (whole ++ mark) (digitsValue whole) x := by
  refine ⟨opens_append hne hdigits, fun negative rest hrest => ?_⟩
  have hends := hmark.ends rest hrest
  rw [List.append_assoc, readNumber_parts hne hdigits hlead (fun u hu => (hends u hu).1)
    (readFraction_none fun u hu => (hends u hu).2) (hmark.read rest hrest), ofParts, List.append_nil, List.length_nil]
  simp

theorem spells_point (hne' : fraction ≠ []) (hfraction : ∀ u ∈ fraction, isDigit u = true) :
    Spells (whole ++ unit '.' :: (fraction ++ mark)) (digitsValue (whole ++ fraction)) (x - fraction.length) := by
  refine ⟨opens_append hne hdigits, fun negative rest hrest => ?_⟩
  have hends := hmark.ends rest hrest
  rw [List.append_assoc, List.cons_append, List.append_assoc, readNumber_parts hne hdigits hlead (endsDigits_point _)
    (readFraction_point hne' hfraction fun u hu => (hends u hu).1) (hmark.read rest hrest), ofParts]

end Forms

/-- Zeros after the digits stand for their exponent. -/
theorem Spells.of_mul_pow {t : Text} {k : Nat} (h : 0 < d) (ht : Spells t (d * 10 ^ k) x) : Spells t d (x + k) := by
  refine ⟨ht.opens, fun negative rest hrest => ?_⟩
  rw [ht.read negative rest hrest, Number.ofDecimal_mul_pow h]

/-- Each of the four forms keeps the digits and their exponent. -/
theorem spells_layout (h : 0 < d) : Spells (layout (Text.ofNat d) x) d x := by
  have hdigits : ∀ u ∈ Text.ofNat d, isDigit u = true := fun u => Text.isDigit_of_mem_ofNat
  have hvalue : digitsValue (Text.ofNat d) = d := Number.digitsValue_ofNat d
  have hhead := Text.head?_ofNat h
  have hne : Text.ofNat d ≠ [] := Text.ofNat_ne_nil
  generalize Text.ofNat d = digits at hdigits hvalue hhead hne ⊢
  unfold layout
  dsimp only
  split
  · next hguard =>
    simp only [Bool.and_eq_true, decide_eq_true_eq] at hguard
    obtain ⟨k, rfl⟩ : ∃ k : Nat, x = k := ⟨x.toNat, by omega⟩
    rw [show (digits.length + (k : Int) - digits.length).toNat = k by omega]
    have hspells : Spells (digits ++ zeros k ++ []) (digitsValue (digits ++ zeros k)) 0 := by
      refine spells_digits (by simp [hne]) (fun u hu => ?_) (.inr ?_) mark_nil
      · exact (List.mem_append.mp hu).elim (hdigits u) isDigit_of_mem_zeros
      · rwa [List.head?_append_of_ne_nil _ hne]
    rw [List.append_nil, Number.digitsValue_append_zeros, hvalue] at hspells
    simpa using hspells.of_mul_pow h
  split
  · next hwhole hguard =>
    simp only [Bool.and_eq_true, decide_eq_true_eq] at hwhole hguard
    obtain ⟨n, hn⟩ : ∃ n : Nat, (digits.length : Int) + x = n := ⟨((digits.length : Int) + x).toNat, by omega⟩
    rw [hn, Int.toNat_natCast]
    have htake : digits.take n ≠ [] := List.ne_nil_of_length_pos (by rw [List.length_take]; omega)
    have hdrop : digits.drop n ≠ [] := List.ne_nil_of_length_pos (by rw [List.length_drop]; omega)
    have hspells :
        Spells (digits.take n ++ unit '.' :: (digits.drop n ++ [])) (digitsValue (digits.take n ++ digits.drop n))
        (0 - (digits.drop n).length) := by
      refine spells_point htake (fun u hu => hdigits u (List.mem_of_mem_take hu)) (.inr ?_) mark_nil hdrop
        fun u hu => hdigits u (List.mem_of_mem_drop hu)
      rwa [List.head?_take, if_neg (by omega)]
    rw [List.append_nil, List.take_append_drop, hvalue, List.length_drop] at hspells
    rwa [show x = 0 - (digits.length - n : Nat) by omega]
  split
  · next hguard =>
    simp only [Bool.and_eq_true, decide_eq_true_eq] at hguard
    obtain ⟨j, hj⟩ : ∃ j : Nat, (digits.length : Int) + x = -j := ⟨(-((digits.length : Int) + x)).toNat, by omega⟩
    rw [hj, neg_neg, Int.toNat_natCast]
    have hspells :
        Spells (zeros 1 ++ unit '.' :: ((zeros j ++ digits) ++ [])) (digitsValue (zeros 1 ++ (zeros j ++ digits)))
        (0 - (zeros j ++ digits).length) := by
      refine spells_point (by simp [zeros]) (fun u => isDigit_of_mem_zeros) (.inl rfl) mark_nil (by simp [hne])
        fun u hu => ?_
      exact (List.mem_append.mp hu).elim isDigit_of_mem_zeros (hdigits u)
    have hlength : (zeros j).length = j := List.length_replicate
    rw [List.append_nil, Number.digitsValue_zeros_append, Number.digitsValue_zeros_append, hvalue, List.length_append,
      hlength] at hspells
    rwa [show x = 0 - (j + digits.length : Nat) by omega]
  · have hmark := mark_exponent (digits.length + x - 1)
    obtain ⟨u, more, rfl⟩ := List.exists_cons_of_ne_nil hne
    cases more with
    | nil =>
      have hspells := spells_digits hne hdigits (.inl rfl) hmark
      rw [hvalue] at hspells
      simpa using hspells
    | cons v more =>
      have hspells :=
        spells_point (List.cons_ne_nil u []) (fun w hw => List.mem_singleton.mp hw ▸ hdigits u List.mem_cons_self)
        (.inl rfl) hmark (List.cons_ne_nil v more) fun w hw => hdigits w (List.mem_cons_of_mem u hw)
      rw [List.singleton_append, List.singleton_append, hvalue] at hspells
      convert hspells using 1
      simp only [List.length_cons]
      omega

end Layout

def decimalOf (m e : Int) : Nat × Int :=
  let (digits, exponent) := Number.shortest m.natAbs e
  Number.dropZeros 400 digits exponent

theorem numberText_of_ne_zero {m e : Int} (hm : m ≠ 0) :
    numberText (.finite m e) =
      (if m < 0 then [unit '-'] else []) ++ layout (Text.ofNat (decimalOf m e).1) (decimalOf m e).2 := by
  simp only [numberText, Number.toText, if_neg hm, decimalOf]
  split <;> rfl

theorem ofDecimal_decimalOf {m e : Int} (hx : Number.Double (.finite m e)) (hm : m ≠ 0) :
    0 < (decimalOf m e).1 ∧ ofDecimal (decide (m < 0)) (decimalOf m e).1 (decimalOf m e).2 = .finite m e := by
  have hsize : 0 < m.natAbs := Int.natAbs_pos.mpr hm
  have habs : Number.Double (.finite m.natAbs e) := by
    obtain ⟨hlow, hhigh, hsmall, hfull⟩ := hx
    exact .finite hlow hhigh hsmall hfull
  have hshortest := Number.ofDecimal_shortest habs hsize
  have hpos : 0 < (Number.shortest m.natAbs e).1 := by
    refine Nat.pos_of_ne_zero fun h => ?_
    rw [h] at hshortest
    injection hshortest with hmantissa
    omega
  obtain ⟨hpos', hdrop⟩ := Number.ofDecimal_dropZeros hpos (Number.shortest m.natAbs e).2 400
  refine ⟨hpos', ?_⟩
  have hread := hdrop.trans hshortest
  rcases lt_or_ge m 0 with hneg | hnonneg
  · have hsign := Number.ofDecimal_sign hread
    rw [show -(m.natAbs : Int) = m by omega] at hsign
    rwa [decide_eq_true hneg]
  · rw [show (m.natAbs : Int) = m by omega] at hread
    rwa [decide_eq_false (not_lt.mpr hnonneg)]

/-- A double is read from its text. -/
theorem readsBack_of_double {n : Number} (h : n.Double) : ReadsBack n := by
  obtain ⟨m, e, rfl, hmin⟩ : ∃ m e, n = .finite m e ∧ (m = 0 → e = Number.minExponent) := by
    obtain ⟨hlow, hhigh, hsmall, hfull⟩ := h
    exact ⟨_, _, rfl, fun hm => hfull.resolve_left (by rw [hm]; decide)⟩
  by_cases hzero : m = 0
  · have hdigit : ∀ u ∈ [unit '0'], isDigit u = true := fun u hu => List.mem_singleton.mp hu ▸ (by decide)
    have hspells := spells_digits (List.cons_ne_nil (unit '0') []) hdigit (.inl rfl) mark_nil
    have htext : numberText (.finite m e) = [unit '0'] := by simp only [numberText, Number.toText, if_pos hzero]; rfl
    refine ⟨⟨_, _, htext, .inl (by decide)⟩, fun rest hrest => ?_⟩
    rw [htext, hzero, hmin hzero]
    exact hspells.read false rest hrest
  · obtain ⟨hpos, hread⟩ := ofDecimal_decimalOf h hzero
    have hspells := spells_layout (x := (decimalOf m e).2) hpos
    have htext := numberText_of_ne_zero (e := e) hzero
    obtain ⟨u, s, hopens, hu⟩ := hspells.opens
    constructor
    · rw [htext, hopens]
      split
      · exact ⟨_, _, rfl, .inr rfl⟩
      · exact ⟨_, _, rfl, .inl hu⟩
    · intro rest hrest
      have hparts := hspells.read (decide (m < 0)) rest hrest
      rw [hread] at hparts
      rw [htext, List.append_assoc]
      simpa only [decide_eq_true_eq] using hparts

end Json
end AnnotationIndex
