import AnnotationIndex.Number.Decimal
import Mathlib.Algebra.Order.Field.Power
import Mathlib.Data.Rat.Cast.Order
import Mathlib.Tactic.FieldSimp
import Mathlib.Tactic.Linarith
import Mathlib.Tactic.Positivity
import Mathlib.Tactic.Ring

/-!
The numbers that rounding gives: doubles in their only form, and the double itself for every fraction
that is near enough to one.
-/
namespace AnnotationIndex.Number

/-- A double in its only form: with a mantissa of 53 bits, or with the least exponent. -/
inductive Double : Number → Prop
  | finite {m e : Int} (hlow : minExponent ≤ e) (hhigh : e ≤ maxExponent) (hsmall : m.natAbs < 2 ^ 53)
      (hfull : 2 ^ 52 ≤ m.natAbs ∨ e = minExponent) : Double (.finite m e)

theorem double_zero : Double zero := .finite (by decide) (by decide) (by decide) (.inr rfl)

section Quotient
variable {n d k m : Nat}

theorem divNearestEven_mul (hk : 0 < k) : divNearestEven (n * k) (d * k) = divNearestEven n d := by
  unfold divNearestEven
  rw [Nat.mul_div_mul_right _ _ hk, Nat.mul_mod_mul_right]
  simp only [← Nat.mul_assoc, Nat.mul_lt_mul_right hk]

/-- The rounded quotient is at most one half away. -/
theorem divNearestEven_error (hd : 0 < d) : |(n / d : ℚ) - divNearestEven n d| ≤ 1 / 2 := by
  have hd' : (0 : ℚ) < d := by exact_mod_cast hd
  have hsplit : (n : ℚ) = d * (n / d : Nat) + (n % d : Nat) := by exact_mod_cast (Nat.div_add_mod n d).symm
  have hquotient : (n / d : ℚ) = (n / d : Nat) + (n % d : Nat) / (d : ℚ) := by
    rw [hsplit]
    field_simp
  have hrest : ((n % d : Nat) : ℚ) / d < 1 := by
    rw [div_lt_one hd']
    exact_mod_cast Nat.mod_lt n hd
  have hpos : (0 : ℚ) ≤ (n % d : Nat) / (d : ℚ) := by positivity
  have hlow (h : 2 * (n % d) ≤ d) : ((n % d : Nat) : ℚ) / d ≤ 1 / 2 := by
    have : (2 * (n % d : Nat) : ℚ) ≤ d := by exact_mod_cast h
    rw [div_le_iff₀ hd']
    linarith
  have hhigh (h : d ≤ 2 * (n % d)) : 1 / 2 ≤ ((n % d : Nat) : ℚ) / d := by
    have : (d : ℚ) ≤ 2 * (n % d : Nat) := by exact_mod_cast h
    rw [le_div_iff₀ hd']
    linarith
  rw [hquotient, abs_le]
  dsimp only [divNearestEven]
  split_ifs with h₁ h₂ h₃
  · have := hlow (by omega)
    constructor <;> linarith
  · have := hhigh (by omega)
    push_cast
    constructor <;> linarith
  · have := hlow (by omega)
    constructor <;> linarith
  · have := hhigh (by omega)
    push_cast
    constructor <;> linarith

/-- A quotient less than one half away from a natural is rounded to it. -/
theorem divNearestEven_eq (hd : 0 < d) (h : |(n / d : ℚ) - m| < 1 / 2) : divNearestEven n d = m := by
  have herror := divNearestEven_error (n := n) hd
  rw [abs_le] at herror
  rw [abs_lt] at h
  have hle : divNearestEven n d < m + 1 := by
    have : (divNearestEven n d : ℚ) < (m + 1 : Nat) := by push_cast; linarith
    exact_mod_cast this
  have hge : m < divNearestEven n d + 1 := by
    have : (m : ℚ) < (divNearestEven n d + 1 : Nat) := by push_cast; linarith
    exact_mod_cast this
  omega

theorem divNearestEven_le (hd : 0 < d) (h : (n / d : ℚ) < m) : divNearestEven n d ≤ m := by
  have herror := abs_le.mp (divNearestEven_error (n := n) hd)
  have : (divNearestEven n d : ℚ) < (m + 1 : Nat) := by push_cast; linarith
  exact Nat.lt_succ_iff.mp (by exact_mod_cast this)

theorem le_divNearestEven (hd : 0 < d) (h : (m : ℚ) ≤ n / d) : m ≤ divNearestEven n d := by
  have herror := abs_le.mp (divNearestEven_error (n := n) hd)
  have : (m : ℚ) < (divNearestEven n d + 1 : Nat) := by push_cast; linarith
  exact Nat.lt_succ_iff.mp (by exact_mod_cast this)

end Quotient

section Window
variable {num den k : Nat} {e f : Int} {v : ℚ}

theorem two_zpow_pos (e : Int) : (0 : ℚ) < 2 ^ e := zpow_pos (by norm_num) e

theorem two_zpow_add (e : Int) (n : Nat) : (2 : ℚ) ^ (e + n) = 2 ^ e * 2 ^ n := by
  rw [zpow_add₀ two_ne_zero, zpow_natCast]

theorem scale_pos (hd : 0 < den) (num : Nat) (e : Int) : 0 < (scale num den e).2 := by
  unfold scale
  split
  · exact hd
  · exact Nat.mul_pos hd (Nat.pow_pos (by decide))

theorem scale_value (num den : Nat) (e : Int) :
    ((scale num den e).1 : ℚ) / (scale num den e).2 = num / den / 2 ^ e := by
  unfold scale
  split
  · next h =>
    obtain ⟨n, rfl⟩ : ∃ n : Nat, e = -n := ⟨(-e).toNat, by omega⟩
    simp only [neg_neg, Int.toNat_natCast, Nat.pow_eq, zpow_neg, zpow_natCast]
    push_cast
    rw [div_inv_eq_mul, mul_div_right_comm]
  · next h =>
    obtain ⟨n, rfl⟩ : ∃ n : Nat, e = n := ⟨e.toNat, by omega⟩
    simp only [Int.toNat_natCast, Nat.pow_eq, zpow_natCast]
    push_cast
    rw [div_div]

theorem scale_mul (num den k : Nat) (e : Int) :
    scale (num * k) (den * k) e = ((scale num den e).1 * k, (scale num den e).2 * k) := by
  unfold scale
  split
  · rw [Nat.mul_right_comm]
  · rw [Nat.mul_right_comm]

/-- The exponent of the doubles around a value: the one that leaves 53 bits, or the least. -/
structure Window (v : ℚ) (e : Int) : Prop where
  low : minExponent ≤ e
  below : v < 2 ^ (e + 53)
  full : e = minExponent ∨ (2 : ℚ) ^ (e + 52) ≤ v

namespace Window

theorem le (h : Window v e) (h' : Window v f) : e ≤ f := by
  rcases h.full with rfl | hfull
  · exact h'.low
  · have := (zpow_lt_zpow_iff_right₀ (one_lt_two (α := ℚ))).mp (hfull.trans_lt h'.below)
    omega

theorem unique (h : Window v e) (h' : Window v f) : e = f := Int.le_antisymm (h.le h') (h'.le h)

theorem div_lt (h : Window v e) : v / 2 ^ e < (2 : ℚ) ^ 53 := by
  rw [div_lt_iff₀ (two_zpow_pos e), mul_comm, ← two_zpow_add]
  exact h.below

theorem le_div (h : Window v e) : e = minExponent ∨ (2 : ℚ) ^ 52 ≤ v / 2 ^ e := by
  refine h.full.imp_right fun hfull => ?_
  rw [le_div_iff₀ (two_zpow_pos e), mul_comm, ← two_zpow_add]
  exact hfull

end Window

/-- The bit lengths give the value within a factor of two. -/
theorem log2_bounds (hn : 0 < num) (hd : 0 < den) :
    (2 : ℚ) ^ ((Nat.log2 num : Int) - Nat.log2 den - 1) < num / den ∧
      (num / den : ℚ) < 2 ^ ((Nat.log2 num : Int) - Nat.log2 den + 1) := by
  have hd' : (0 : ℚ) < den := by exact_mod_cast hd
  have hn₁ : (2 : ℚ) ^ (Nat.log2 num : Int) ≤ num := by exact_mod_cast Nat.log2_self_le (by omega)
  have hn₂ : (num : ℚ) < 2 ^ (Nat.log2 num + 1 : Int) := by exact_mod_cast Nat.lt_log2_self
  have hd₁ : (2 : ℚ) ^ (Nat.log2 den : Int) ≤ den := by exact_mod_cast Nat.log2_self_le (by omega)
  have hd₂ : (den : ℚ) < 2 ^ (Nat.log2 den + 1 : Int) := by exact_mod_cast Nat.lt_log2_self
  constructor
  · rw [lt_div_iff₀ hd']
    calc (2 : ℚ) ^ ((Nat.log2 num : Int) - Nat.log2 den - 1) * den
        < 2 ^ ((Nat.log2 num : Int) - Nat.log2 den - 1) * 2 ^ (Nat.log2 den + 1 : Int) :=
          mul_lt_mul_of_pos_left hd₂ (two_zpow_pos _)
      _ = 2 ^ (Nat.log2 num : Int) := by rw [← zpow_add₀ two_ne_zero]; congr 1; omega
      _ ≤ num := hn₁
  · rw [div_lt_iff₀ hd']
    calc (num : ℚ) < 2 ^ (Nat.log2 num + 1 : Int) := hn₂
      _ = 2 ^ ((Nat.log2 num : Int) - Nat.log2 den + 1) * 2 ^ (Nat.log2 den : Int) := by
        rw [← zpow_add₀ two_ne_zero]; congr 1; omega
      _ ≤ 2 ^ ((Nat.log2 num : Int) - Nat.log2 den + 1) * den := mul_le_mul_of_nonneg_left hd₁ (two_zpow_pos _).le

theorem window_exponentOf (hn : 0 < num) (hd : 0 < den) : Window (num / den : ℚ) (exponentOf num den) := by
  obtain ⟨hlow, hhigh⟩ := log2_bounds hn hd
  set L : Int := (Nat.log2 num : Int) - Nat.log2 den with hL
  set guess : Int := max (L - 53) minExponent with hguess
  have htest :
      (scale num den guess).1 / (scale num den guess).2 < Nat.pow 2 53 ↔ (num / den : ℚ) < 2 ^ (guess + 53) := by
    have hpos := scale_pos hd num guess
    have hpos' : (0 : ℚ) < (scale num den guess).2 := by exact_mod_cast hpos
    rw [Nat.div_lt_iff_lt_mul hpos, add_comm, zpow_add₀ two_ne_zero, ← div_lt_iff₀ (two_zpow_pos _), ← scale_value,
      div_lt_iff₀ hpos']
    norm_cast
  have hexp : exponentOf num den = if (num / den : ℚ) < 2 ^ (guess + 53) then guess else guess + 1 := by
    simp only [exponentOf, ← hL, ← hguess, htest]
  rw [hexp]
  split
  · next hbelow =>
    refine ⟨le_max_right _ _, hbelow, ?_⟩
    rcases max_choice (L - 53) minExponent with h | h
    · refine .inr (le_of_eq_of_le (congrArg _ ?_) hlow.le)
      omega
    · exact .inl h
  · next habove =>
    refine ⟨by omega, hhigh.trans_le (zpow_le_zpow_right₀ one_le_two (by omega)), .inr ?_⟩
    rw [show guess + 1 + 52 = guess + 53 by omega]
    exact not_lt.mp habove

end Window

section Round
variable {num den k m : Nat} {e : Int} {negative : Bool}

/-- Rounding in the window of the fraction. -/
theorem round_of_window (hn : 0 < num) (hd : 0 < den) (h : Window (num / den : ℚ) e)
    (hm : divNearestEven (scale num den e).1 (scale num den e).2 = m) :
    round negative num den = if m = 2 ^ 53 then
        if maxExponent < e + 1 then infinite negative
        else finite (if negative then -(2 ^ 52 : Nat) else (2 ^ 52 : Nat)) (e + 1)
      else if maxExponent < e then infinite negative else finite (if negative then -m else m) e := by
  have he : exponentOf num den = e := (window_exponentOf hn hd).unique h
  simp only [round, if_neg hn.ne', he, hm, Nat.pow_eq]
  split <;> rfl

/-- Only the value of the fraction counts. -/
theorem round_mul (hd : 0 < den) (hk : 0 < k) : round negative (num * k) (den * k) = round negative num den := by
  rcases Nat.eq_zero_or_pos num with rfl | hn
  · rw [Nat.zero_mul]
    rfl
  · have hk' : (k : ℚ) ≠ 0 := by exact_mod_cast hk.ne'
    have h := window_exponentOf hn hd
    have h' : Window ((num * k : Nat) / (den * k : Nat) : ℚ) (exponentOf num den) := by
      push_cast
      rwa [mul_div_mul_right _ _ hk']
    rw [round_of_window (Nat.mul_pos hn hk) (Nat.mul_pos hd hk) h' rfl, round_of_window hn hd h rfl, scale_mul,
      divNearestEven_mul hk]

/-- Rounding gives a double, or goes beyond all of them. -/
theorem double_round (negative : Bool) (hden : 0 < den) (h : round negative num den ≠ infinite negative) :
    Double (round negative num den) := by
  rcases Nat.eq_zero_or_pos num with rfl | hn
  · exact double_zero
  have hwindow := window_exponentOf hn hden
  set e := exponentOf num den
  have hpos := scale_pos hden num e
  have hbelow : divNearestEven (scale num den e).1 (scale num den e).2 ≤ 2 ^ 53 :=
    divNearestEven_le hpos (by rw [scale_value]; exact_mod_cast hwindow.div_lt)
  have hfull : e = minExponent ∨ 2 ^ 52 ≤ divNearestEven (scale num den e).1 (scale num den e).2 :=
    hwindow.le_div.imp_right fun hle => le_divNearestEven hpos (by rw [scale_value]; exact_mod_cast hle)
  have hlow := hwindow.low
  rw [round_of_window hn hden hwindow rfl] at h ⊢
  generalize divNearestEven (scale num den e).1 (scale num den e).2 = m at h hbelow hfull ⊢
  by_cases hcarry : m = 2 ^ 53
  · rw [if_pos hcarry] at h ⊢
    have hhigh : ¬ maxExponent < e + 1 := fun hhigh => h (if_pos hhigh)
    rw [if_neg hhigh]
    exact .finite (by omega) (by omega) (by split <;> decide) (.inl (by split <;> decide))
  · rw [if_neg hcarry] at h ⊢
    have hhigh : ¬ maxExponent < e := fun hhigh => h (if_pos hhigh)
    have hsize : (if negative then -(m : Int) else m).natAbs = m := by split <;> omega
    rw [if_neg hhigh]
    exact .finite hlow (by omega) (by omega) (hfull.symm.imp_left (hsize.symm ▸ ·))

/-- The size of a double is what a fraction is rounded to that is near enough to it. -/
theorem round_near (hx : Double (finite m e)) (hm : 0 < m) (hd : 0 < den)
    (hnear : |(num / den : ℚ) - m * 2 ^ e| * 2 ^ 54 < m * 2 ^ e) :
    round negative num den = finite (if negative then -m else m) e := by
  obtain ⟨hlow, hhigh, hsmall, hfull⟩ := hx
  rw [Int.natAbs_natCast] at hsmall hfull
  have hunit := two_zpow_pos e
  have hm₁ : (1 : ℚ) ≤ m := by exact_mod_cast hm
  have hm₂ : (m : ℚ) + 1 ≤ 2 ^ 53 := by exact_mod_cast hsmall
  have hsize : (m : ℚ) * 2 ^ e + 2 ^ e ≤ 2 ^ 53 * 2 ^ e := by nlinarith
  have hunit' : (2 : ℚ) ^ e ≤ m * 2 ^ e := by nlinarith
  obtain ⟨hleft, hright⟩ := abs_lt.mp (lt_of_mul_lt_mul_right (a := (2 : ℚ) ^ 54) (b := |(num / den : ℚ) - m * 2 ^ e|)
    (c := m * 2 ^ e / 2 ^ 54) (by rwa [div_mul_cancel₀ _ (by positivity)]) (by positivity))
  have hvalue : (0 : ℚ) < num / den := by linarith
  have hn : 0 < num := by
    rcases Nat.eq_zero_or_pos num with rfl | h
    · simp at hvalue
    · exact h
  have hpos (f : Int) := scale_pos hd num f
  by_cases hcase : e = minExponent ∨ (2 : ℚ) ^ (e + 52) ≤ num / den
  · have hwindow : Window (num / den : ℚ) e := by
      refine ⟨hlow, ?_, hcase⟩
      rw [show e + 53 = e + (53 : Nat) from rfl, two_zpow_add]
      linarith
    have hquotient : divNearestEven (scale num den e).1 (scale num den e).2 = m := by
      refine divNearestEven_eq (hpos e) ?_
      rw [scale_value, div_sub' hunit.ne', abs_div, abs_of_pos hunit, div_lt_iff₀ hunit, mul_comm (2 ^ e) (m : ℚ),
        abs_lt]
      constructor <;> linarith
    rw [round_of_window hn hd hwindow hquotient, if_neg (by omega), if_neg (by omega)]
  · -- The fraction lies under the least mantissa of 53 bits, where the doubles are twice as dense.
    obtain ⟨hmin, hunder⟩ := not_or.mp hcase
    rw [not_le, show e + 52 = e + (52 : Nat) from rfl, two_zpow_add] at hunder
    have hm₃ : m = 2 ^ 52 := by
      refine Nat.le_antisymm (Nat.lt_succ_iff.mp ?_) (hfull.resolve_right hmin)
      have : (m : ℚ) < (2 ^ 52 + 1 : Nat) := by
        refine lt_of_mul_lt_mul_right (a := (2 : ℚ) ^ e) ?_ hunit.le
        push_cast
        linarith
      exact_mod_cast this
    subst hm₃
    have hhalf : (2 : ℚ) ^ e = 2 * 2 ^ (e - 1) := by
      rw [← zpow_one_add₀ two_ne_zero]
      congr 1
      omega
    have hwindow : Window (num / den : ℚ) (e - 1) := by
      refine ⟨by omega, ?_, .inr ?_⟩
      · rw [show e - 1 + 53 = e - 1 + (53 : Nat) from rfl, two_zpow_add]
        linarith
      · rw [show e - 1 + 52 = e - 1 + (52 : Nat) from rfl, two_zpow_add]
        linarith
    have hquotient : divNearestEven (scale num den (e - 1)).1 (scale num den (e - 1)).2 = 2 ^ 53 := by
      have hunit := two_zpow_pos (e - 1)
      refine divNearestEven_eq (hpos (e - 1)) ?_
      rw [scale_value, div_sub' hunit.ne', abs_div, abs_of_pos hunit, div_lt_iff₀ hunit, abs_lt]
      push_cast
      constructor <;> linarith
    rw [round_of_window hn hd hwindow hquotient, if_pos rfl, if_neg (by omega), Int.sub_add_cancel]

theorem round_exact (hx : Double (finite m e)) (hm : 0 < m) (hd : 0 < den) (hvalue : (num / den : ℚ) = m * 2 ^ e) :
    round negative num den = finite (if negative then -m else m) e := by
  refine round_near hx hm hd ?_
  rw [hvalue, sub_self, abs_zero, zero_mul]
  exact mul_pos (by exact_mod_cast hm) (two_zpow_pos e)

theorem round_sign {n : Int} (h : round false num den = finite n e) : round true num den = finite (-n) e := by
  revert h
  unfold round
  split
  · rintro ⟨⟩
    rfl
  · dsimp only
    split <;> split <;> rintro ⟨⟩ <;> rfl

theorem not_lt_zero_round : (round false num den).lt zero = false := by
  unfold round
  split
  · rfl
  · dsimp only
    split
    all_goals
      split
      · rfl
      · refine decide_eq_false (Int.not_lt.mpr ?_)
        simp only [align, zero_mul, Bool.false_eq_true, if_false]
        positivity

end Round

section Holds
variable {n : Int}

theorem not_lt_zero_ofInt (h : 0 ≤ n) : (ofInt n).lt zero = false := by
  rw [ofInt, decide_eq_false (Int.not_lt.mpr h)]
  exact not_lt_zero_round

def Holds (n : Int) : Prop := (ofInt n).toInt? = some n

theorem Holds.double (h : Holds n) : Double (ofInt n) := by
  refine double_round _ Nat.one_pos fun hinfinite => ?_
  rw [Holds, ofInt, hinfinite] at h
  exact absurd h (by simp [toInt?])

theorem toInt?_shift (n : Int) (s : Nat) : (finite (n * 2 ^ s) (-s)).toInt? = some n := by
  rcases Nat.eq_zero_or_pos s with rfl | hs
  · simp [toInt?]
  · have hpow : 0 < 2 ^ s := Nat.pow_pos (by decide)
    have habs : (n * 2 ^ s).natAbs = n.natAbs * 2 ^ s := by rw [Int.natAbs_mul, Int.natAbs_pow]; rfl
    rw [toInt?, if_neg (by omega), neg_neg, Int.toNat_natCast, Nat.pow_eq, habs]
    simp only [Nat.mul_mod_left, if_true, Nat.mul_div_cancel _ hpow, Int.sign_mul]
    rw [Int.sign_eq_one_of_pos (show (0 : Int) < 2 ^ s by positivity), mul_one, Int.sign_mul_natAbs]

/-- The double of an integer shifted to 53 bits. -/
theorem ofInt_shift {s : Nat} (hs : s ≤ 1074) (hlow : 2 ^ 52 ≤ n.natAbs * 2 ^ s) (hhigh : n.natAbs * 2 ^ s < 2 ^ 53) :
    ofInt n = finite (n * 2 ^ s) (-s) := by
  have hx : Double (finite (n.natAbs * 2 ^ s : Nat) (-s)) :=
    .finite (by simp only [minExponent]; omega) (by simp only [maxExponent]; omega) hhigh (.inl hlow)
  have hvalue : (n.natAbs / (1 : Nat) : ℚ) = (n.natAbs * 2 ^ s : Nat) * 2 ^ (-s : Int) := by
    push_cast
    rw [div_one, zpow_neg, zpow_natCast, mul_assoc, mul_inv_cancel₀ (by positivity), mul_one]
  rw [ofInt, round_exact hx (by omega) Nat.one_pos hvalue]
  congr 1
  push_cast
  rcases lt_or_ge n 0 with hn | hn
  · rw [decide_eq_true hn, abs_of_neg hn]
    simp
  · rw [decide_eq_false (not_lt.mpr hn), abs_of_nonneg hn]
    simp

theorem holds_of_natAbs_le (h : n.natAbs ≤ 2 ^ 53) : Holds n := by
  rcases Nat.eq_zero_or_pos n.natAbs with hzero | hpos
  · rw [Int.natAbs_eq_zero.mp hzero]
    simp [Holds, ofInt, round, zero, toInt?]
  rcases h.eq_or_lt with heq | hlt
  · rcases Int.natAbs_eq n with hn | hn <;> rw [hn, heq, Holds] <;> decide
  · have hbits : Nat.log2 n.natAbs < 53 := (Nat.log2_lt hpos.ne').mpr hlt
    have hlow := Nat.log2_self_le hpos.ne'
    have hhigh := Nat.lt_log2_self (n := n.natAbs)
    obtain ⟨s, hs⟩ : ∃ s, Nat.log2 n.natAbs + s = 52 := ⟨52 - Nat.log2 n.natAbs, by omega⟩
    have hpow : 0 < 2 ^ s := Nat.pow_pos (by decide)
    rw [Holds, ofInt_shift (show s ≤ 1074 by omega) ?_ ?_, toInt?_shift]
    · exact hs ▸ Nat.pow_add 2 _ s ▸ Nat.mul_le_mul_right _ hlow
    · rw [show 53 = Nat.log2 n.natAbs + 1 + s by omega, Nat.pow_add]
      exact Nat.mul_lt_mul_of_pos_right hhigh hpow

end Holds

end AnnotationIndex.Number
