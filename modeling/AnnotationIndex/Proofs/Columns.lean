import AnnotationIndex.Proofs.LineKinds

/-!
Columns of masked lines. Every unit of a masked line is the unit of the line in its column or a space, and a masked
line is as long as the line. Only a line that ends on an escape inside a string comes out one space longer: the
escape is masked as two units, and there is no second one.
-/
namespace AnnotationIndex
open Text

namespace Mask
variable {o : Options} {m after : Mode} {out line t : Text} {u v : UInt16}

/-- Each unit is the one in its column of the line, or a space. -/
def InColumns (out raw : Text) : Prop := ∀ (i : Nat) (u : UInt16), out[i]? = some u → u = 0x20 ∨ raw[i]? = some u

@[simp] theorem inColumns_nil (line : Text) : InColumns [] line := fun _ _ h => nomatch h

@[simp] theorem inColumns_cons : InColumns (u :: out) (v :: line) ↔ (u = 0x20 ∨ v = u) ∧ InColumns out line := by
  constructor
  · exact fun h => ⟨by simpa using h 0 u rfl, fun i w hw => h (i + 1) w hw⟩
  · rintro ⟨hu, h⟩ i w hw
    cases i with
    | zero =>
      obtain rfl : u = w := by simpa using hw
      simpa using hu
    | succ i => exact h i w hw

@[simp] theorem inColumns_space : InColumns [0x20] line := fun i u h => by
  cases i with
  | zero => exact .inl (by simpa using h.symm)
  | succ i => simp at h

theorem inColumns_blankOut (t : Text) : InColumns (blankOut t) t := by
  induction t with
  | nil => simp [blankOut]
  | cons u t ih => simpa [blankOut] using ih

theorem inColumns_codeLine (o : Options) (m : Mode) (t : Text) : InColumns (codeLine o m t).1 t := by
  fun_induction codeLine o m t with
  | case13 | case14 => exact inColumns_blankOut _
  | _ => simp_all

def closingBackslashes (t : Text) : Nat := (t.reverse.takeWhile (· == unit '\\')).length

theorem closingBackslashes_cons (h : ∃ v ∈ u :: t, v ≠ unit '\\') :
    closingBackslashes (u :: t) = closingBackslashes t := by
  rw [closingBackslashes, closingBackslashes, List.reverse_cons, List.takeWhile_append]
  split
  · next hall =>
    have ht : ∀ v ∈ t, v = unit '\\' := by
      have hwhole := (List.takeWhile_prefix (· == unit '\\') (l := t.reverse)).eq_of_length hall
      simpa using List.takeWhile_eq_self_iff.mp hwhole
    have hu : u ≠ unit '\\' := by
      obtain ⟨v, hv, hne⟩ := h
      obtain rfl | hv := List.mem_cons.mp hv
      · exact hne
      · exact absurd (ht v hv) hne
    simp [hu, hall]
  · rfl

theorem closingBackslashes_append {front : Text} (h : (∀ u ∈ front, u ≠ unit '\\') ∨ ∃ v ∈ t, v ≠ unit '\\') :
    closingBackslashes (front ++ t) = closingBackslashes t := by
  induction front with
  | nil => rfl
  | cons u front ih =>
    rw [List.cons_append, closingBackslashes_cons, ih]
    · exact h.imp_left fun hfront => (List.forall_mem_cons.mp hfront).2
    · rcases h with hfront | ⟨v, hv, hne⟩
      · exact ⟨u, List.mem_cons_self, (List.forall_mem_cons.mp hfront).1⟩
      · exact ⟨v, List.mem_cons_of_mem _ (List.mem_append_right _ hv), hne⟩

/-- Whether a line ends on an escape does not hang on an escape before its end. -/
theorem closingBackslashes_escape (v : UInt16) (t : Text) :
    closingBackslashes (unit '\\' :: v :: t) % 2 = closingBackslashes t % 2 := by
  by_cases h : ∃ w ∈ v :: t, w ≠ unit '\\'
  · obtain ⟨w, hw, hne⟩ := h
    rw [closingBackslashes_cons ⟨w, List.mem_cons_of_mem _ hw, hne⟩, closingBackslashes_cons ⟨w, hw, hne⟩]
  · have hall : ∀ w ∈ v :: t, w = unit '\\' := by simpa using h
    have hlength {s : Text} (hs : ∀ w ∈ s, w = unit '\\') : closingBackslashes s = s.length := by
      rw [closingBackslashes, List.takeWhile_eq_self_iff.mpr (by simpa using hs), List.length_reverse]
    rw [hlength (List.forall_mem_cons.mpr ⟨rfl, hall⟩), hlength (List.forall_mem_cons.mp hall).2, List.length_cons,
      List.length_cons]
    omega

/-- A line that masking leaves in a string, and that ends on a backslash which no backslash before it escapes. -/
def EndsOnEscape (after : Mode) (line : Text) : Prop :=
  after = .string (unit '"') ∧ closingBackslashes line % 2 = 1

instance : Decidable (EndsOnEscape after line) := inferInstanceAs (Decidable (_ ∧ _))

/-- A string that a line ends in and did not begin in is opened in the line. -/
theorem quote_mem (hm : m ≠ .string (unit '"')) (h : (codeLine o m t).2 = .string (unit '"')) : unit '"' ∈ t := by
  fun_induction codeLine o m t with
  | case17 u rest _ _ _ _ _ out m' hline ih =>
    by_cases hu : u = unit '"'
    · simp [hu]
    · simp_all
  | _ => simp_all

/-- More units in front of a masked line, none of them a backslash inside a string. -/
theorem length_step (front written : Text) (hline : codeLine o m t = (out, after))
    (ih : out.length = t.length + if EndsOnEscape after t then 1 else 0) (hlength : written.length = front.length)
    (hfront : m = .string (unit '"') → ∀ u ∈ front, u ≠ unit '\\') :
    (written ++ out).length = (front ++ t).length + if EndsOnEscape after (front ++ t) then 1 else 0 := by
  have hends : EndsOnEscape after (front ++ t) ↔ EndsOnEscape after t := by
    refine and_congr_right fun hafter => ?_
    rw [closingBackslashes_append]
    by_cases hm : m = .string (unit '"')
    · exact .inl (hfront hm)
    · exact .inr ⟨_, quote_mem hm (by rw [hline]; exact hafter), by decide⟩
  simp only [List.length_append, hends, hlength, ih]
  omega

theorem length_codeLine (hm : StringMode o m) (h : codeLine o m t = (out, after)) :
    out.length = t.length + if EndsOnEscape after t then 1 else 0 := by
  revert h
  fun_induction codeLine o m t generalizing out after with
  | case1 => rintro ⟨⟩; simp [EndsOnEscape, closingBackslashes]
  | case2 u v rest _ _ _ hline ih =>
    rintro ⟨⟩
    exact length_step [u, v] [0x20, 0x20] hline (ih (by simp) hline) rfl (by simp)
  | case16 u _ v rest _ _ hline =>
    rename_i ih
    rintro ⟨⟩
    exact length_step [u, v] [0x20, 0x20] hline (ih (by simp) hline) rfl (by simp)
  | case3 | case9 | case11 | case12 | case18 | case19 =>
    rename_i hline ih
    rintro ⟨⟩
    exact length_step [_] [_] hline (ih (by simp) hline) rfl (by simp)
  | case10 q u v rest hescape hq out m hline ih =>
    rintro ⟨⟩
    refine length_step [u] [0x20] hline (ih hm hline) rfl fun hstring w hw => ?_
    obtain rfl := List.mem_singleton.mp hw
    obtain rfl := Mode.string.inj hstring
    exact fun hu => hescape (by rw [hu]; decide)
  | case17 u rest _ _ _ _ hquote out m hline =>
    rename_i ih
    rintro ⟨⟩
    refine length_step [u] [u] hline (ih (by simpa using hquote) hline) rfl fun hstring w hw => ?_
    rw [List.mem_singleton.mp hw, Mode.string.inj hstring]
    decide
  | case8 q u v rest hescape out m hline ih =>
    rintro ⟨⟩
    obtain ⟨rfl, -⟩ : u = unit '\\' ∧ q ≠ unit '`' := by simpa using hescape
    have hends : EndsOnEscape m (unit '\\' :: v :: rest) ↔ EndsOnEscape m rest := by
      rw [EndsOnEscape, EndsOnEscape, closingBackslashes_escape]
    simp only [List.length_cons, hends, ih hm hline]
    omega
  | case5 q u hescape =>
    rintro ⟨⟩
    obtain ⟨rfl, hq⟩ : u = unit '\\' ∧ q ≠ unit '`' := by simpa using hescape
    obtain rfl : q = unit '"' := (stringMode_string.mp hm).resolve_right fun h => hq h.2
    rfl
  | case7 q u hescape hq =>
    rintro ⟨⟩
    have hends : ¬EndsOnEscape (.string q) [u] := by
      rintro ⟨hstring, hodd⟩
      obtain rfl := Mode.string.inj hstring
      have hu : u ≠ unit '\\' := fun hu => hescape (by rw [hu]; decide)
      simp [closingBackslashes, hu] at hodd
    simp [hends]
  | case4 | case6 | case13 | case14 | case15 => rintro ⟨⟩; simp [EndsOnEscape, blankOut]

theorem stringMode_modeBefore (o : Options) (ls : List Text) (i : Nat) : StringMode o (modeBefore o ls i) := by
  rcases modeBefore_cases o ls i with h | h | ⟨hbacktick, h⟩ <;> simp [*]

/-- As many lines come out as go in. Each is in the columns of its line, and as long as it, but for one space more
where the line ends on an escape. -/
theorem columns_code (o : Options) (ls : List Text) :
    (code o ls).length = ls.length ∧
      ∀ (i : Nat) (line : Text), ls[i]? = some line → ∃ out, (code o ls)[i]? = some out ∧ InColumns out line ∧
        out.length = line.length + if EndsOnEscape (codeLine o (modeBefore o ls i) line).2 line then 1 else 0 := by
  refine ⟨length_codeFrom o .code ls, fun i line hline => ⟨(codeLine o (modeBefore o ls i) line).1, ?_, ?_, ?_⟩⟩
  · rw [code, getElem?_codeFrom, hline]
    rfl
  · exact inColumns_codeLine o _ line
  · exact length_codeLine (stringMode_modeBefore o ls i) rfl

/-- The second line begins in a comment and ends on an escape. -/
theorem columns_code_continued :
    ∃ out, (code ⟨false, false, false⟩ ["/*", "*/ \"a\\"])[1]? = some out ∧ InColumns out "*/ \"a\\" ∧
      out.length = 7 := by
  obtain ⟨out, hout, hcolumns, hlength⟩ := (columns_code ⟨false, false, false⟩ ["/*", "*/ \"a\\"]).2 1 _ rfl
  exact ⟨out, hout, hcolumns, hlength.trans (by decide +kernel)⟩

/-- A line that is nothing but a quote and a backslash is masked to one unit more than it has. -/
theorem code_overrun :
    code ⟨false, false, false⟩ ["\"\\"] = ["\"  "] ∧ ("\"  " : Text).length ≠ ("\"\\" : Text).length := by decide

end Mask
end AnnotationIndex
