import AnnotationIndex.Proofs.Rounding

/-!
The shortest digits of a double are read as that double. Seventeen digits always are: the next grid of
digits is finer than the doubles are dense.
-/
namespace AnnotationIndex.Number

section Powers
variable {p q : Int}

theorem ten_zpow_pos (p : Int) : (0 : ℚ) < 10 ^ p := zpow_pos (by norm_num) p

theorem ten_zpow_lt_iff : (10 : ℚ) ^ p < 10 ^ q ↔ p < q := zpow_lt_zpow_iff_right₀ (by norm_num)

theorem ten_zpow_le_of_le (h : p ≤ q) : (10 : ℚ) ^ p ≤ 10 ^ q := zpow_le_zpow_right₀ (by norm_num) h

/- Ten cubed is less than `2 ^ 10`, and `2 ^ 93` less than `10 ^ 28`. -/
theorem ten_zpow_le_two_zpow (h : (0 ≤ q ∧ 10 * p ≤ 3 * q) ∨ (q ≤ 0 ∧ 93 * p ≤ 28 * q)) : (10 : ℚ) ^ p ≤ 2 ^ q := by
  rcases h with ⟨hq, h⟩ | ⟨hq, h⟩
  · refine (pow_le_pow_iff_left₀ (ten_zpow_pos p).le (two_zpow_pos q).le (by decide : 10 ≠ 0)).mp ?_
    calc ((10 : ℚ) ^ p) ^ 10 = 10 ^ (10 * p) := by rw [mul_comm, zpow_mul]; rfl
      _ ≤ 10 ^ (3 * q) := ten_zpow_le_of_le h
      _ = (10 ^ 3) ^ q := by rw [zpow_mul]; rfl
      _ ≤ (2 ^ 10) ^ q := zpow_le_zpow_left₀ hq (by norm_num) (by norm_num)
      _ = (2 ^ q) ^ 10 := by rw [← zpow_natCast, ← zpow_natCast, zpow_comm]
  · refine (pow_le_pow_iff_left₀ (ten_zpow_pos p).le (two_zpow_pos q).le (by decide : 93 ≠ 0)).mp ?_
    calc ((10 : ℚ) ^ p) ^ 93 = 10 ^ (93 * p) := by rw [mul_comm, zpow_mul]; rfl
      _ ≤ 10 ^ (28 * q) := ten_zpow_le_of_le h
      _ = (10 ^ 28) ^ q := by rw [zpow_mul]; rfl
      _ ≤ (2 ^ 93) ^ q := by
        have hswap : (2 ^ 93 : ℚ) ^ (-q) ≤ (10 ^ 28) ^ (-q) := zpow_le_zpow_left₀ (by omega) (by norm_num) (by norm_num)
        rw [zpow_neg, zpow_neg] at hswap
        exact (inv_le_inv₀ (by positivity) (by positivity)).mp hswap
      _ = (2 ^ q) ^ 93 := by rw [← zpow_natCast, ← zpow_natCast, zpow_comm]

theorem two_zpow_le_ten_zpow (h : (q ≤ 0 ∧ 3 * q ≤ 10 * p) ∨ (0 ≤ q ∧ 28 * q ≤ 93 * p)) : (2 : ℚ) ^ q ≤ 10 ^ p := by
  have hswap := ten_zpow_le_two_zpow (p := -p) (q := -q) (by omega)
  rw [zpow_neg, zpow_neg] at hswap
  exact (inv_le_inv₀ (ten_zpow_pos p) (two_zpow_pos q)).mp hswap

end Powers

/-- The value of a positive double lies between the least and the greatest one. -/
theorem double_bounds {m : Nat} {e : Int} (hx : Double (finite m e)) (hm : 0 < m) :
    (2 : ℚ) ^ (-1074 : Int) ≤ m * 2 ^ e ∧ (m * 2 ^ e : ℚ) < 2 ^ (1024 : Int) := by
  obtain ⟨hlow, hhigh, hsmall, -⟩ := hx
  have hm₁ : (1 : ℚ) ≤ m := by exact_mod_cast hm
  have hm₂ : (m : ℚ) < 2 ^ (53 : Int) := by exact_mod_cast hsmall
  constructor
  · calc (2 : ℚ) ^ (-1074 : Int) ≤ 2 ^ e := zpow_le_zpow_right₀ one_le_two hlow
      _ ≤ m * 2 ^ e := le_mul_of_one_le_left (two_zpow_pos e).le hm₁
  · calc (m * 2 ^ e : ℚ) < 2 ^ (53 : Int) * 2 ^ e := mul_lt_mul_of_pos_right hm₂ (two_zpow_pos e)
      _ = 2 ^ (53 + e) := (zpow_add₀ two_ne_zero _ _).symm
      _ ≤ 2 ^ (1024 : Int) := zpow_le_zpow_right₀ one_le_two (by simp only [maxExponent] at hhigh; omega)

section Decimal
variable {negative : Bool} {digits : Nat} {exponent : Int}

theorem length_toDigits_mul_ten (h : 0 < digits) :
    (Nat.toDigits 10 (digits * 10)).length = (Nat.toDigits 10 digits).length + 1 := by
  rw [Nat.toDigits_of_base_le (by decide) (by omega), List.length_append, Nat.mul_div_cancel _ (by decide)]
  rfl

theorem ofDecimal_of_magnitude (hdigits : digits ≠ 0)
    (hlow : -decimalLimit ≤ (Nat.toDigits 10 digits).length + exponent)
    (hhigh : (Nat.toDigits 10 digits).length + exponent ≤ decimalLimit) :
    ofDecimal negative digits exponent = if 0 ≤ exponent then round negative (digits * 10 ^ exponent.toNat) 1
      else round negative digits (10 ^ (-exponent).toNat) := by
  simp only [ofDecimal, if_neg hdigits, if_neg (not_lt.mpr hlow), if_neg (not_lt.mpr hhigh), Nat.pow_eq]

/-- A zero at the end of the digits may go into the exponent. -/
theorem ofDecimal_mul_ten (h : 0 < digits) :
    ofDecimal negative (digits * 10) exponent = ofDecimal negative digits (exponent + 1) := by
  unfold ofDecimal
  rw [if_neg (by omega), if_neg h.ne', length_toDigits_mul_ten h]
  dsimp only
  rw [show ((Nat.toDigits 10 digits).length + 1 : Nat) + exponent = (Nat.toDigits 10 digits).length + (exponent + 1) by
    push_cast; omega]
  split
  · rfl
  split
  · rfl
  rcases lt_trichotomy exponent (-1) with hneg | rfl | hpos
  · obtain ⟨n, rfl⟩ : ∃ n : Nat, exponent = -(n + 1 : Nat) := ⟨(-exponent - 1).toNat, by omega⟩
    rw [if_neg (by omega), if_neg (by omega), show (-(-((n + 1 : Nat) : Int) + 1)).toNat = n by omega, neg_neg,
      Int.toNat_natCast, Nat.pow_eq, Nat.pow_eq, Nat.pow_succ]
    exact round_mul (k := 10) (Nat.pow_pos (by decide)) (by decide)
  · have hround : round negative (digits * 10) (1 * 10) = round negative digits 1 := round_mul Nat.one_pos (by decide)
    simpa using hround
  · obtain ⟨n, rfl⟩ : ∃ n : Nat, exponent = n := ⟨exponent.toNat, by omega⟩
    rw [if_pos (by omega), if_pos (by omega), show ((n : Int) + 1).toNat = n + 1 by omega, Int.toNat_natCast,
      Nat.pow_eq, Nat.pow_eq, Nat.pow_succ, Nat.mul_assoc, Nat.mul_comm 10]

theorem ofDecimal_mul_pow (h : 0 < digits) (k : Nat) :
    ofDecimal negative (digits * 10 ^ k) exponent = ofDecimal negative digits (exponent + k) := by
  induction k generalizing exponent with
  | zero => simp
  | succ k ih =>
    rw [Nat.pow_succ, ← Nat.mul_assoc, ofDecimal_mul_ten (Nat.mul_pos h (Nat.pow_pos (by decide))), ih]
    congr 1
    push_cast
    omega

theorem ofDecimal_dropZeros (h : 0 < digits) (exponent : Int) (fuel : Nat) :
    0 < (dropZeros fuel digits exponent).1 ∧
      ofDecimal negative (dropZeros fuel digits exponent).1 (dropZeros fuel digits exponent).2 =
        ofDecimal negative digits exponent := by
  induction fuel generalizing digits exponent with
  | zero => exact ⟨h, rfl⟩
  | succ fuel ih =>
    unfold dropZeros
    split
    · next hzero =>
      have hmod : digits % 10 = 0 := by simp at hzero; exact hzero.2
      obtain ⟨hpos, heq⟩ := ih (show 0 < digits / 10 by omega) (exponent + 1)
      refine ⟨hpos, heq.trans ?_⟩
      rw [← ofDecimal_mul_ten (by omega), Nat.div_mul_cancel (Nat.dvd_of_mod_eq_zero hmod)]
    · exact ⟨h, rfl⟩

theorem ofDecimal_sign {n e : Int} (h : ofDecimal false digits exponent = finite n e) :
    ofDecimal true digits exponent = finite (-n) e := by
  revert h
  unfold ofDecimal
  split
  · rintro ⟨⟩
    rfl
  dsimp only
  split
  · rintro ⟨⟩
  split
  · rintro ⟨⟩
    rfl
  split
  · exact round_sign
  · exact round_sign

theorem double_ofDecimal (negative : Bool) (digits : Nat) (exponent : Int)
    (h : ofDecimal negative digits exponent ≠ infinite negative) : Double (ofDecimal negative digits exponent) := by
  revert h
  unfold ofDecimal
  split
  · exact fun _ => double_zero
  dsimp only
  split
  · exact fun h => absurd rfl h
  split
  · exact fun _ => double_zero
  split
  · exact double_round negative Nat.one_pos
  · exact double_round negative (Nat.pow_pos (by decide))

theorem toDigits_bounds (h : 0 < digits) :
    10 ^ ((Nat.toDigits 10 digits).length - 1) ≤ digits ∧ digits < 10 ^ (Nat.toDigits 10 digits).length := by
  have hlength : 0 < (Nat.toDigits 10 digits).length := List.length_pos_iff.mpr Nat.toDigits_ne_nil
  refine ⟨not_lt.mp fun hlt => ?_, (Nat.length_toDigits_le_iff (by decide) hlength).mp le_rfl⟩
  rcases Nat.eq_zero_or_pos ((Nat.toDigits 10 digits).length - 1) with hone | hmore
  · rw [hone, pow_zero] at hlt
    omega
  · have := (Nat.length_toDigits_le_iff (by decide) hmore).mpr hlt
    omega

/-- The place of the first digit, from the value. -/
theorem magnitude_bounds (h : 0 < digits) (exponent : Int) :
    (10 : ℚ) ^ ((Nat.toDigits 10 digits).length + exponent - 1) ≤ digits * 10 ^ exponent ∧
      (digits * 10 ^ exponent : ℚ) < 10 ^ ((Nat.toDigits 10 digits).length + exponent) := by
  obtain ⟨hlow, hhigh⟩ := toDigits_bounds h
  have hlength : 0 < (Nat.toDigits 10 digits).length := List.length_pos_iff.mpr Nat.toDigits_ne_nil
  generalize (Nat.toDigits 10 digits).length = k at hlow hhigh hlength
  have hten : (10 : ℚ) ≠ 0 := by norm_num
  constructor
  · rw [show (k : Int) + exponent - 1 = (k - 1 : Nat) + exponent by omega, zpow_add₀ hten, zpow_natCast]
    exact mul_le_mul_of_nonneg_right (by exact_mod_cast hlow) (ten_zpow_pos _).le
  · rw [zpow_add₀ hten, zpow_natCast]
    exact mul_lt_mul_of_pos_right (by exact_mod_cast hhigh) (ten_zpow_pos _)

/-- The size of a double is what digits are read as that are near enough to it. -/
theorem ofDecimal_near {m : Nat} {e : Int} (hx : Double (finite m e)) (hm : 0 < m)
    (hnear : |(digits * 10 ^ exponent : ℚ) - m * 2 ^ e| * 2 ^ 54 < m * 2 ^ e) :
    ofDecimal false digits exponent = finite m e := by
  obtain ⟨hlow, hhigh⟩ := double_bounds hx hm
  have hsize : (0 : ℚ) < m * 2 ^ e := (two_zpow_pos _).trans_le hlow
  obtain ⟨hleft, hright⟩ := abs_lt.mp (show |(digits * 10 ^ exponent : ℚ) - m * 2 ^ e| < m * 2 ^ e / 2 by
    have := abs_nonneg ((digits * 10 ^ exponent : ℚ) - m * 2 ^ e)
    linarith)
  have hdigits : 0 < digits := by
    refine Nat.pos_of_ne_zero fun h => ?_
    rw [h, Nat.cast_zero, zero_mul] at hleft
    linarith
  obtain ⟨hfirst, hbeyond⟩ := magnitude_bounds hdigits exponent
  have hmin : -decimalLimit ≤ (Nat.toDigits 10 digits).length + exponent := by
    have hlt : (10 : ℚ) ^ (-324 : Int) < 10 ^ ((Nat.toDigits 10 digits).length + exponent) := by
      refine lt_of_le_of_lt (b := (2 : ℚ) ^ (-1075 : Int)) (ten_zpow_le_two_zpow (by omega)) ?_
      rw [show (-1075 : Int) = -1074 + -1 from rfl, zpow_add₀ two_ne_zero, zpow_neg_one]
      linarith
    have := ten_zpow_lt_iff.mp hlt
    simp only [decimalLimit]
    omega
  have hmax : (Nat.toDigits 10 digits).length + exponent ≤ decimalLimit := by
    have hlt : (10 : ℚ) ^ ((Nat.toDigits 10 digits).length + exponent - 1) < 10 ^ (309 : Int) := by
      refine lt_of_lt_of_le (b := (2 : ℚ) ^ (1025 : Int)) ?_ (two_zpow_le_ten_zpow (by omega))
      rw [show (1025 : Int) = 1024 + 1 from rfl, zpow_add_one₀ two_ne_zero]
      generalize (2 : ℚ) ^ (1024 : Int) = top at hhigh ⊢
      linarith
    have := ten_zpow_lt_iff.mp hlt
    simp only [decimalLimit]
    omega
  rw [ofDecimal_of_magnitude hdigits.ne' hmin hmax]
  split
  · next hexp =>
    refine round_near hx hm Nat.one_pos ?_
    obtain ⟨n, rfl⟩ : ∃ n : Nat, exponent = n := ⟨exponent.toNat, by omega⟩
    rw [zpow_natCast] at hnear
    rw [Int.toNat_natCast]
    push_cast
    rwa [div_one]
  · next hexp =>
    refine round_near hx hm (Nat.pow_pos (by decide)) ?_
    obtain ⟨n, rfl⟩ : ∃ n : Nat, exponent = -n := ⟨(-exponent).toNat, by omega⟩
    rw [zpow_neg, zpow_natCast] at hnear
    rw [neg_neg, Int.toNat_natCast]
    push_cast
    rwa [div_eq_mul_inv]

end Decimal

section Shortest
variable {m num den : Nat} {e p : Int} {x : Number}

theorem fraction_pos (m : Nat) (e : Int) : 0 < (fraction m e).2 := by
  unfold fraction
  split
  · exact Nat.one_pos
  · exact Nat.pow_pos (by decide)

theorem fraction_value (m : Nat) (e : Int) : ((fraction m e).1 : ℚ) / (fraction m e).2 = m * 2 ^ e := by
  unfold fraction
  split
  · obtain ⟨n, rfl⟩ : ∃ n : Nat, e = n := ⟨e.toNat, by omega⟩
    rw [Int.toNat_natCast, zpow_natCast, Nat.pow_eq]
    push_cast
    rw [div_one]
  · obtain ⟨n, rfl⟩ : ∃ n : Nat, e = -n := ⟨(-e).toNat, by omega⟩
    rw [neg_neg, Int.toNat_natCast, zpow_neg, zpow_natCast, Nat.pow_eq]
    push_cast
    rw [div_eq_mul_inv]

/-- The comparison that finds the place of the decimal point. -/
theorem below_iff (hd : 0 < den) (p : Int) :
    (if 0 ≤ p then decide (num < den * Nat.pow 10 p.toNat) else decide (num * Nat.pow 10 (-p).toNat < den)) = true ↔
      (num / den : ℚ) < 10 ^ p := by
  have hd' : (0 : ℚ) < den := by exact_mod_cast hd
  rw [div_lt_iff₀ hd']
  split
  · obtain ⟨n, rfl⟩ : ∃ n : Nat, p = n := ⟨p.toNat, by omega⟩
    rw [Int.toNat_natCast, zpow_natCast, decide_eq_true_iff, Nat.pow_eq, mul_comm den]
    norm_cast
  · obtain ⟨n, rfl⟩ : ∃ n : Nat, p = -n := ⟨(-p).toNat, by omega⟩
    rw [neg_neg, Int.toNat_natCast, zpow_neg, zpow_natCast, decide_eq_true_iff, Nat.pow_eq,
      inv_mul_eq_div, lt_div_iff₀ (by positivity)]
    norm_cast

/-- The search ends at the value's own place, if it starts no higher and that place is within its fuel. -/
theorem pointFrom_spec (hd : 0 < den) (fuel : Nat) (p : Int) (hlow : (10 : ℚ) ^ (p - 1) ≤ num / den)
    (hhigh : (num / den : ℚ) < 10 ^ (p + fuel)) :
    (10 : ℚ) ^ (pointFrom num den fuel p - 1) ≤ num / den ∧ (num / den : ℚ) < 10 ^ pointFrom num den fuel p := by
  induction fuel generalizing p with
  | zero => exact ⟨hlow, by rwa [Int.natCast_zero, add_zero] at hhigh⟩
  | succ fuel ih =>
    by_cases hbelow : (num / den : ℚ) < 10 ^ p
    · have hstep : pointFrom num den (fuel + 1) p = p := if_pos ((below_iff hd p).mpr hbelow)
      rw [hstep]
      exact ⟨hlow, hbelow⟩
    · have hstep : pointFrom num den (fuel + 1) p = pointFrom num den fuel (p + 1) :=
        if_neg fun htest => hbelow ((below_iff hd p).mp htest)
      rw [hstep]
      refine ih (p + 1) ?_ ?_
      · rw [Int.add_sub_cancel]
        exact not_lt.mp hbelow
      · rwa [show p + 1 + (fuel : Int) = p + (fuel + 1 : Nat) by omega]

/-- The point stands before the first digit. -/
theorem point_spec (hn : 0 < num) (hd : 0 < den) (hmin : (2 : ℚ) ^ (-1074 : Int) ≤ num / den)
    (hmax : (num / den : ℚ) < 2 ^ (1024 : Int)) :
    (10 : ℚ) ^ (point num den - 1) ≤ num / den ∧ (num / den : ℚ) < 10 ^ point num den := by
  obtain ⟨hlow, hhigh⟩ := log2_bounds hn hd
  unfold point
  generalize (Nat.log2 num : Int) - Nat.log2 den = L at hlow hhigh ⊢
  have hL₁ : -1074 < L + 1 := (zpow_lt_zpow_iff_right₀ (one_lt_two (α := ℚ))).mp (hmin.trans_lt hhigh)
  have hL₂ : L - 1 < 1024 := (zpow_lt_zpow_iff_right₀ (one_lt_two (α := ℚ))).mp (hlow.trans hmax)
  refine pointFrom_spec hd 8 _ ?_ ?_
  · exact (ten_zpow_le_two_zpow (by omega)).trans hlow.le
  · exact hhigh.trans_le (two_zpow_le_ten_zpow (by push_cast; omega))

def gridFraction (num den : Nat) (p : Int) : Nat × Nat :=
  if 0 ≤ p then (num, den * Nat.pow 10 p.toNat) else (num * Nat.pow 10 (-p).toNat, den)

theorem gridFraction_pos (hd : 0 < den) (num : Nat) (p : Int) : 0 < (gridFraction num den p).2 := by
  unfold gridFraction
  split
  · exact Nat.mul_pos hd (Nat.pow_pos (by decide))
  · exact hd

theorem gridFraction_value (num den : Nat) (p : Int) :
    ((gridFraction num den p).1 : ℚ) / (gridFraction num den p).2 = num / den / 10 ^ p := by
  unfold gridFraction
  split
  · obtain ⟨n, rfl⟩ : ∃ n : Nat, p = n := ⟨p.toNat, by omega⟩
    rw [Int.toNat_natCast, zpow_natCast, Nat.pow_eq]
    push_cast
    rw [div_div]
  · obtain ⟨n, rfl⟩ : ∃ n : Nat, p = -n := ⟨(-p).toNat, by omega⟩
    rw [neg_neg, Int.toNat_natCast, zpow_neg, zpow_natCast, Nat.pow_eq, div_inv_eq_mul]
    push_cast
    rw [mul_div_right_comm]

def nearest (num den : Nat) (p : Int) : Nat := divNearestEven (gridFraction num den p).1 (gridFraction num den p).2

theorem nearest_error (hd : 0 < den) (num : Nat) (p : Int) :
    |(nearest num den p * 10 ^ p : ℚ) - num / den| ≤ 10 ^ p / 2 := by
  have hten := ten_zpow_pos p
  have herror := divNearestEven_error (n := (gridFraction num den p).1) (gridFraction_pos hd num p)
  rw [gridFraction_value, abs_sub_comm, sub_div' hten.ne', abs_div, abs_of_pos hten, div_le_iff₀ hten] at herror
  rw [nearest]
  linarith

/-- The nearest digits are tried first. -/
theorem gridDigits_eq (x : Number) (num den : Nat) (p : Int) (n : Nat) :
    ∃ second, gridDigits x num den p n =
      if ofDecimal false (nearest num den (p - n)) (p - n) = x then some (nearest num den (p - n))
      else if ofDecimal false second (p - n) = x then some second else none := by
  have hfirst (a b : Nat) : (if 2 * (a % b) < b || (2 * (a % b) == b && a / b % 2 == 0) then a / b else a / b + 1) =
      divNearestEven a b := by
    simp only [divNearestEven, Bool.or_eq_true, Bool.and_eq_true, decide_eq_true_eq, beq_iff_eq]
    split_ifs <;> omega
  simp only [gridDigits, hfirst]
  exact ⟨_, rfl⟩

theorem gridDigits_sound {n d : Nat} (h : gridDigits x num den p n = some d) : ofDecimal false d (p - n) = x := by
  obtain ⟨second, heq⟩ := gridDigits_eq x num den p n
  rw [heq] at h
  split_ifs at h with hnearest hsecond
  · exact Option.some.inj h ▸ hnearest
  · exact Option.some.inj h ▸ hsecond

theorem gridDigits_ne_none {n : Nat} (h : ofDecimal false (nearest num den (p - n)) (p - n) = x) :
    gridDigits x num den p n ≠ none := by
  obtain ⟨second, heq⟩ := gridDigits_eq x num den p n
  rw [heq, if_pos h]
  exact Option.some_ne_none _

/-- Seventeen digits are near enough to a double. -/
theorem ofDecimal_nearest (hx : Double (finite m e)) (hm : 0 < m) (hd : 0 < den) (hvalue : (num / den : ℚ) = m * 2 ^ e)
    (hpoint : (10 : ℚ) ^ (p - 1) ≤ num / den) :
    ofDecimal false (nearest num den (p - 17)) (p - 17) = finite m e := by
  refine ofDecimal_near hx hm ?_
  have herror := nearest_error hd num (p - 17)
  have hstep : (10 : ℚ) ^ (p - 1) = 10 ^ (p - 17) * 10 ^ 16 := by
    rw [← zpow_natCast, ← zpow_add₀ (by norm_num)]
    congr 1
    omega
  have hten := ten_zpow_pos (p - 17)
  rw [← hvalue]
  linarith

/-- The search finds digits that are read as the double once some grid on its way has them. -/
theorem ofDecimal_shortestFrom (left first n : Nat) (hfirst : first ≤ n) (hn : n < first + left)
    (h : gridDigits x num den p n ≠ none) :
    ofDecimal false (shortestFrom x num den p left first).1 (shortestFrom x num den p left first).2 = x := by
  induction left generalizing first with
  | zero => omega
  | succ left ih =>
    unfold shortestFrom
    split
    · next d hd => exact gridDigits_sound hd
    · next hnone =>
      have hne : first ≠ n := fun heq => h (heq ▸ hnone)
      exact ih (first + 1) (by omega) (by omega)

theorem ofDecimal_shortest (hx : Double (finite m e)) (hm : 0 < m) :
    ofDecimal false (shortest m e).1 (shortest m e).2 = finite m e := by
  have hd := fraction_pos m e
  have hvalue := fraction_value m e
  obtain ⟨hmin, hmax⟩ := double_bounds hx hm
  rw [← hvalue] at hmin hmax
  have hn : 0 < (fraction m e).1 := by
    refine Nat.pos_of_ne_zero fun h => ?_
    rw [h, Nat.cast_zero, zero_div] at hmin
    exact absurd hmin (not_le.mpr (two_zpow_pos _))
  have hpoint := (point_spec hn hd hmin hmax).1
  exact ofDecimal_shortestFrom 17 1 17 (by decide) (by decide)
    (gridDigits_ne_none (ofDecimal_nearest hx hm hd hvalue hpoint))

end Shortest

end AnnotationIndex.Number
