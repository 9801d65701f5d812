import AnnotationIndex.Json.Print
import AnnotationIndex.Json.Read

/-!
Texts read back from their quoted form, whatever units they hold.
-/
namespace AnnotationIndex.Json
open AnnotationIndex.Text (unit)

section Escapes

theorem hexValue?_hexDigit : ∀ n < 16, hexValue? (hexDigit n) = some n := by decide

/-- Four hexadecimal digits read back to the unit. -/
theorem hex4?_digits (u : UInt16) (rest : Text) :
    hex4? (hexDigit (u.toNat / 0x1000) :: hexDigit (u.toNat / 0x100 % 16) :: hexDigit (u.toNat / 0x10 % 16) ::
      hexDigit (u.toNat % 16) :: rest) = some (u, rest) := by
  have hu : u.toNat < 65536 := u.toNat_lt
  have hsum : u.toNat / 0x1000 * 0x1000 + u.toNat / 0x100 % 16 * 0x100 + u.toNat / 0x10 % 16 * 0x10 + u.toNat % 16 =
      u.toNat := by omega
  rw [hex4?, hexValue?_hexDigit _ (by omega), hexValue?_hexDigit _ (by omega), hexValue?_hexDigit _ (by omega),
    hexValue?_hexDigit _ (by omega)]
  simp only [bind, Option.bind_some, pure, hsum]
  simp

theorem unescape?_shortEscape {u e : UInt16} (h : shortEscape? u = some e) :
    unescape? e = some u ∧ e ≠ unit 'u' := by
  revert h
  unfold shortEscape?
  repeat' split
  all_goals
    intro h
    cases h
    try
      rename_i hu
      rw [eq_of_beq hu]
      decide

end Escapes

section Reading
variable {u : UInt16} {n : Nat} {rest : Text}

theorem readString_plain (hq : u ≠ 0x22) (hc : ¬u < 0x20) (hb : u ≠ 0x5C) :
    readString (n + 1) (u :: rest) = (readString n rest).map fun r => (u :: r.1, r.2) := by
  simp [readString, hq, hc, hb]

theorem readString_escape {e : UInt16} (h : unescape? e = some u) (he : e ≠ unit 'u') :
    readString (n + 1) (unit '\\' :: e :: rest) = (readString n rest).map fun r => (u :: r.1, r.2) := by
  have hb : unit '\\' = 0x5C := rfl
  simp [readString, hb, he, h]

theorem readString_hex (u : UInt16) :
    readString (n + 1) (escapeUnit u ++ rest) = (readString n rest).map fun r => (u :: r.1, r.2) := by
  have hb : unit '\\' = 0x5C := rfl
  simp [escapeUnit, readString, hb, hex4?_digits]

/-- One unit, escaped or not, is read back as that unit. -/
theorem readString_quoteUnit (u : UInt16) :
    readString (n + 1) (quoteUnit u ++ rest) = (readString n rest).map fun r => (u :: r.1, r.2) := by
  unfold quoteUnit
  split
  · next e he =>
    obtain ⟨h, hne⟩ := unescape?_shortEscape he
    exact readString_escape h hne
  · next hnone =>
    split
    · exact readString_hex u
    · next hplain =>
      have hq : u ≠ 0x22 := by rintro rfl; exact absurd hnone (by decide)
      have hb : u ≠ 0x5C := by rintro rfl; exact absurd hnone (by decide)
      refine readString_plain hq (fun hc => hplain ?_) hb
      simp [hc]

theorem length_quoteUnit (u : UInt16) : 0 < (quoteUnit u).length := by
  unfold quoteUnit
  repeat' split
  all_goals simp [escapeUnit]

end Reading

/-- A half of a surrogate pair is no delimiter of a string. -/
theorem plain_of_surrogate {u : UInt16} (h : 0xD800 ≤ u) : u ≠ 0x22 ∧ ¬u < 0x20 ∧ u ≠ 0x5C := by
  rw [UInt16.le_iff_toNat_le] at h
  simp only [ne_eq, ← UInt16.toNat_inj, UInt16.lt_iff_toNat_lt]
  simp at *
  omega

/-- A quoted text is read back up to its closing quote. -/
theorem readString_quoteBody (t rest : Text) {fuel : Nat} (hf : (quoteBody t).length < fuel) :
    readString fuel (quoteBody t ++ unit '"' :: rest) = some (t, rest) := by
  induction t using quoteBody.induct generalizing fuel with
  | case1 =>
    obtain ⟨n, rfl⟩ := Nat.exists_eq_succ_of_ne_zero (Nat.ne_of_gt hf)
    rfl
  | case2 u =>
    rw [quoteBody] at hf ⊢
    have hu := length_quoteUnit u
    obtain ⟨n, rfl⟩ : ∃ n, fuel = n + 1 + 1 := ⟨fuel - 2, by omega⟩
    rw [readString_quoteUnit]
    rfl
  | case3 u v more hpair ih =>
    rw [quoteBody, if_pos hpair] at hf ⊢
    simp only [List.length_cons] at hf
    obtain ⟨n, rfl⟩ : ∃ n, fuel = n + 1 + 1 := ⟨fuel - 2, by omega⟩
    simp only [Bool.and_eq_true, Text.isHighSurrogate, Text.isLowSurrogate, decide_eq_true_eq] at hpair
    obtain ⟨huq, huc, hub⟩ := plain_of_surrogate hpair.1.1
    have hv : (0xD800 : UInt16) ≤ v := UInt16.le_trans (by decide) hpair.2.1
    obtain ⟨hvq, hvc, hvb⟩ := plain_of_surrogate hv
    rw [List.cons_append, List.cons_append, readString_plain huq huc hub, readString_plain hvq hvc hvb, ih (by omega)]
    rfl
  | case4 u v more hpair ih =>
    rw [quoteBody, if_neg hpair] at hf ⊢
    rw [List.length_append] at hf
    have hu := length_quoteUnit u
    obtain ⟨n, rfl⟩ : ∃ n, fuel = n + 1 := ⟨fuel - 1, by omega⟩
    rw [List.append_assoc, readString_quoteUnit, ih (by omega)]
    rfl

end AnnotationIndex.Json
