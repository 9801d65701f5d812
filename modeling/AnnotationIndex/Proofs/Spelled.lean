import AnnotationIndex.Json.Read
import AnnotationIndex.Proofs.ShortestDecimal
import AnnotationIndex.Proofs.KeyOrder

/-!
The values that texts spell. Each number in them is a double or has gone beyond all doubles, so that a text can spell a
number that no canonical text shows: the canonical text has `null` in its place.
-/
namespace AnnotationIndex
open Text

namespace Number
variable {n : Number}

def Spelled (n : Number) : Prop := n.Double ∨ ∃ negative, n = infinite negative

theorem spelled_ofDecimal (negative : Bool) (digits : Nat) (exponent : Int) :
    (ofDecimal negative digits exponent).Spelled := by
  by_cases h : ofDecimal negative digits exponent = infinite negative
  · exact .inr ⟨negative, h⟩
  · exact .inl (double_ofDecimal negative digits exponent h)

def isEndless : Number → Bool
  | infinite _ => true
  | _ => false

theorem Spelled.double (h : n.Spelled) (hn : n.isEndless = false) : n.Double := by
  cases h with
  | inl hdouble => exact hdouble
  | inr hinfinite =>
    obtain ⟨negative, rfl⟩ := hinfinite
    exact absurd hn (by simp [isEndless])

/-- An integer that a number is has the value of the number. -/
theorem value_of_toInt? {m e k : Int} (h : (finite m e).toInt? = some k) : (k : ℚ) = m * 2 ^ e := by
  rw [toInt?] at h
  split at h
  · next he =>
    obtain ⟨n, rfl⟩ := Int.eq_ofNat_of_zero_le he
    simp [← Option.some.inj h]
  · next he =>
    obtain ⟨n, rfl⟩ : ∃ n : Nat, e = -n := ⟨(-e).toNat, by omega⟩
    simp only [neg_neg, Int.toNat_natCast, Nat.pow_eq] at h
    split at h
    · next hmod =>
      obtain ⟨q, hq⟩ := Nat.dvd_of_mod_eq_zero hmod
      have hpow : 0 < 2 ^ n := Nat.pow_pos (by decide)
      have hm : m = m.sign * (2 ^ n * q) := by
        conv_lhs => rw [← Int.sign_mul_natAbs m, hq]
        push_cast
        rfl
      rw [hq, Nat.mul_div_cancel_left _ hpow] at h
      rw [← Option.some.inj h, zpow_neg, zpow_natCast]
      conv_rhs => rw [hm]
      push_cast
      field_simp
    · exact absurd h (by simp)

/-- A double that is an integer is the number of that integer. -/
theorem ofInt_of_toInt? (hn : n.Double) {k : Int} (h : n.toInt? = some k) : ofInt k = n := by
  obtain @⟨m, e, hlow, hhigh, hsmall, hfull⟩ := hn
  have hvalue := value_of_toInt? h
  have hunit := two_zpow_pos e
  by_cases hm : m = 0
  · have hk : k = 0 := by simpa [hm] using hvalue
    have he : e = minExponent := hfull.resolve_left (by simp [hm])
    rw [hk, hm, he]
    rfl
  · have hx : Double (finite m.natAbs e) := .finite hlow hhigh hsmall hfull
    have hsize : (k.natAbs / (1 : Nat) : ℚ) = m.natAbs * 2 ^ e := by
      rw [Nat.cast_one, div_one, Nat.cast_natAbs, Nat.cast_natAbs, Int.cast_abs, Int.cast_abs, hvalue, abs_mul,
        abs_of_pos hunit]
    have hsign : k < 0 ↔ m < 0 := by
      have : (k : ℚ) < 0 ↔ (m : ℚ) < 0 := by rw [hvalue, mul_neg_iff]; simp [hunit, hunit.le]
      exact_mod_cast this
    rw [ofInt, round_exact hx (Int.natAbs_pos.mpr hm) Nat.one_pos hsize]
    simp only [decide_eq_true_eq, hsign, finite.injEq, and_true]
    split <;> omega

/-- An integer that a double is, is held by that double. -/
theorem holds_of_toInt? (hn : n.Double) {k : Int} (h : n.toInt? = some k) : Holds k := by
  rw [Holds, ofInt_of_toInt? hn h, h]

theorem nonneg_of_toInt? {k : Int} (h : n.toInt? = some k) (hlow : n.lt zero = false) : 0 ≤ k := by
  cases n with
  | finite m e =>
    have hvalue := value_of_toInt? h
    simp only [lt, zero, align, Nat.pow_eq, zero_mul, decide_eq_false_iff_not, not_lt] at hlow
    have hm : 0 ≤ m := nonneg_of_mul_nonneg_left hlow (by positivity)
    have hk : (0 : ℚ) ≤ k := hvalue ▸ mul_nonneg (by exact_mod_cast hm) (two_zpow_pos e).le
    exact_mod_cast hk
  | infinite negative => exact absurd h (by simp [toInt?])
  | undefined => exact absurd h (by simp [toInt?])

end Number

namespace Json

inductive Spelled : Json → Prop
  | null : Spelled null
  | bool (b : Bool) : Spelled (bool b)
  | num {n : Number} : n.Spelled → Spelled (num n)
  | str (t : Text) : Spelled (str t)
  | arr {items : List Json} : (∀ v ∈ items, Spelled v) → Spelled (arr items)
  | obj {fs : List (Text × Json)} : (∀ e ∈ fs, Spelled e.2) → Spelled (obj fs)

def SpelledFields (fs : List (Text × Json)) : Prop := ∀ e ∈ fs, e.2.Spelled

theorem SpelledFields.ofList {fs : List (Text × Json)} (h : SpelledFields fs) : SpelledFields (Table.ofList fs) :=
  fun e he => h e (Table.mem_of_ofList he)

theorem spelled_readNumber {t rest : Text} {n : Number} (h : readNumber t = some (n, rest)) : n.Spelled := by
  unfold readNumber at h
  split at h
  dsimp only at h
  split at h
  · exact absurd h (by simp)
  · simp only [Option.bind_eq_bind, Option.bind_eq_some_iff, Prod.exists, pure, Option.some.injEq, Prod.mk.injEq] at h
    obtain ⟨_, _, _, _, _, _, rfl, _⟩ := h
    exact Number.spelled_ofDecimal _ _ _

structure ReadsSpelled (fuel : Nat) : Prop where
  value : ∀ {t v rest}, readValue fuel t = some (v, rest) → v.Spelled
  items : ∀ {t vs rest}, readItems fuel t = some (vs, rest) → ∀ v ∈ vs, v.Spelled
  fields : ∀ {t fs rest}, readFields fuel t = some (fs, rest) → SpelledFields fs

namespace ReadsSpelled
variable {fuel : Nat} (hr : ReadsSpelled fuel) {t rest : Text}
include hr

theorem readValue_succ {v : Json} (h : readValue (fuel + 1) t = some (v, rest)) : v.Spelled := by
  rw [readValue] at h
  repeat' split at h
  all_goals simp only [reduceCtorEq, Option.some.injEq, Option.map_eq_some_iff, Prod.mk.injEq, Prod.exists] at h
  · obtain ⟨s, _, _, rfl, _⟩ := h
    exact .str s
  · obtain ⟨rfl, _⟩ := h
    exact .arr fun _ hv => absurd hv List.not_mem_nil
  · obtain ⟨vs, _, hvs, rfl, _⟩ := h
    exact .arr (hr.items hvs)
  · obtain ⟨rfl, _⟩ := h
    exact .obj fun _ hv => absurd hv List.not_mem_nil
  · obtain ⟨fs, _, hfs, rfl, _⟩ := h
    exact .obj (hr.fields hfs).ofList
  · exact h.1 ▸ .null
  · exact h.1 ▸ .bool true
  · exact h.1 ▸ .bool false
  · obtain ⟨n, _, hn, rfl, _⟩ := h
    exact .num (spelled_readNumber hn)

theorem readItems_succ {vs : List Json} (h : readItems (fuel + 1) t = some (vs, rest)) : ∀ v ∈ vs, v.Spelled := by
  rw [readItems] at h
  split at h
  · exact absurd h (by simp)
  next v _ hv =>
  have hfirst := hr.value hv
  repeat' split at h
  all_goals simp only [reduceCtorEq, Option.some.injEq, Option.map_eq_some_iff, Prod.mk.injEq, Prod.exists] at h
  · obtain ⟨rfl, _⟩ := h
    simpa using hfirst
  · obtain ⟨ws, _, hws, rfl, _⟩ := h
    exact List.forall_mem_cons.mpr ⟨hfirst, hr.items hws⟩

theorem readFields_succ {fs : List (Text × Json)} (h : readFields (fuel + 1) t = some (fs, rest)) :
    SpelledFields fs := by
  rw [readFields] at h
  repeat' split at h
  all_goals simp only [reduceCtorEq, Option.some.injEq, Option.map_eq_some_iff, Prod.mk.injEq, Prod.exists] at h
  · next hv _ _ _ _ _ =>
    obtain ⟨rfl, _⟩ := h
    exact List.forall_mem_cons.mpr ⟨hr.value hv, fun _ he => absurd he List.not_mem_nil⟩
  · next hv _ _ _ _ _ _ =>
    obtain ⟨ws, _, hws, rfl, _⟩ := h
    exact List.forall_mem_cons.mpr ⟨hr.value hv, hr.fields hws⟩

end ReadsSpelled

/- Values, members and fields are read by each other, so that one induction on the fuel is for all three. -/
theorem readsSpelled (fuel : Nat) : ReadsSpelled fuel := by
  induction fuel with
  | zero => constructor <;> simp [readValue, readItems, readFields]
  | succ fuel ih => exact ⟨ih.readValue_succ, ih.readItems_succ, ih.readFields_succ⟩

theorem spelled_parse {t : Text} {v : Json} (h : parse t = some v) : v.Spelled := by
  unfold parse at h
  split at h
  · next hv =>
    split at h
    · exact Option.some.inj h ▸ (readsSpelled _).value hv
    · exact absurd h (by simp)
  · exact absurd h (by simp)

end Json
end AnnotationIndex
