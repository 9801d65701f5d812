import AnnotationIndex.Outline.Mask
import AnnotationIndex.Text.Lines
import Mathlib.Data.List.DropRight
import Mathlib.Data.List.Forall2

/-!
Comment regions. A text shows its units outside comments and the delimiters of its comments; the units strictly
inside a comment are hidden. The regions are those of masking: a block comment ends at the first `*/`, also where
comments nest. Masked lines are a function of what is shown: two texts that show the same are masked to the same
lines, whatever stands in their comments.
-/
namespace AnnotationIndex
open Text

theorem head?_trim (t : Text) : (trim t).head? = (trimStart t).head? := by
  have hinit : trim t <+: trimStart t := List.rdropWhile_prefix isBlank (trimStart t)
  cases hstart : trimStart t with
  | nil =>
    rw [hstart, List.prefix_nil] at hinit
    rw [hinit]
  | cons u rest =>
    have hu : isBlank u = false := by
      have hhead := List.head?_dropWhile_not isBlank t
      rw [show t.dropWhile isBlank = u :: rest from hstart] at hhead
      simpa using hhead
    have hne : trim t ≠ [] := fun h => by
      have hall : ∀ v ∈ trimStart t, isBlank v := List.rdropWhile_eq_nil_iff.mp h
      simp [hstart, hu] at hall
    rw [hstart] at hinit
    cases htrim : trim t with
    | nil => exact absurd htrim hne
    | cons v _ =>
      rw [htrim, List.cons_prefix_cons] at hinit
      rw [hinit.1]
      rfl

theorem head?_trimStart_cons (u : UInt16) {s t : Text} (h : (trimStart s).head? = (trimStart t).head?) :
    (trimStart (u :: s)).head? = (trimStart (u :: t)).head? := by
  unfold trimStart at h ⊢
  rw [List.dropWhile_cons, List.dropWhile_cons]
  split
  · exact h
  · rfl

namespace Mask

def opened (o : Options) (u : UInt16) (rest : Text) : Mode :=
  if u == unit '"' || (o.backtickStrings && u == unit '`') then .string u
  else
    match (if o.charLiterals && u == unit '\'' then literalLength? rest else none) with
    | some n => .literal n
    | none => .code

@[simp] def shown (o : Options) : Mode → Text → List (Option UInt16)
  | _, [] => []
  | .comment, [_] => [none]
  | .comment, u :: v :: rest =>
    if u == unit '*' && v == unit '/' then some u :: some v :: shown o .code rest
    else none :: shown o .comment (v :: rest)
  | .string _, [u] => [some u]
  | .string q, u :: v :: rest =>
    if u == unit '\\' && q != unit '`' then some u :: some v :: shown o (.string q) rest
    else some u :: shown o (if u == q then .code else .string q) (v :: rest)
  | .literal 0, u :: rest => some u :: shown o .code rest
  | .literal (n + 1), u :: rest => some u :: shown o (.literal n) rest
  | .code, [u] => [some u]
  | .code, u :: v :: rest =>
    if u == unit '/' && v == unit '/' then some u :: some v :: List.replicate rest.length none
    else if o.hashComments && u == unit '#' then some u :: none :: List.replicate rest.length none
    else if u == unit '/' && v == unit '*' then some u :: some v :: shown o .comment rest
    else some u :: shown o (opened o u (v :: rest)) (v :: rest)

def shownFrom (o : Options) : Mode → List Text → List (List (Option UInt16))
  | _, [] => []
  | m, line :: rest => shown o m line :: shownFrom o (carry (codeLine o m line).2) rest

@[simp] def shownIndented : IndentedMode → Text → List (Option UInt16)
  | _, [] => []
  | .opening q left, u :: rest =>
    some u :: shownIndented (match left with | 0 => .triple q | n + 1 => .opening q n) rest
  | .triple _, [u] => [some u]
  | .triple _, [u, v] => [some u, some v]
  | .triple q, u :: v :: w :: rest =>
    if u == q && v == q && w == q then some u :: some v :: some w :: shownIndented .code rest
    else some u :: shownIndented (.triple q) (v :: w :: rest)
  | .string _, [u] => [some u]
  | .string q, u :: v :: rest =>
    if u != q && u == unit '\\' then some u :: some v :: shownIndented (.string q) rest
    else some u :: shownIndented (if u == q then .code else .string q) (v :: rest)
  | .code, u :: rest =>
    if u == unit '#' then some u :: List.replicate rest.length none
    else if u == unit '"' || u == unit '\'' then
      some u :: shownIndented (if rest.take 2 == [u, u] then .opening u 1 else .string u) rest
    else some u :: shownIndented .code rest

def shownIndentedFrom : IndentedMode → List Text → List (List (Option UInt16))
  | _, [] => []
  | m, line :: rest => shownIndented m line :: shownIndentedFrom (indentedLine m line).2 rest

def silenced (shows : List (Option UInt16)) : Text := shows.map (·.getD 0x20)

def ShowsOf (shows : List (Option UInt16)) (t : Text) : Prop :=
  List.Forall₂ (fun s u => s = none ∨ s = some u) shows t

theorem silenced_cons (s : Option UInt16) (shows : List (Option UInt16)) :
    silenced (s :: shows) = s.getD 0x20 :: silenced shows := rfl

theorem showsOf_hidden (t : Text) : ShowsOf (List.replicate t.length none) t := by
  induction t with
  | nil => exact .nil
  | cons u t ih => exact .cons (.inl rfl) ih

theorem ShowsOf.mem {shows : List (Option UInt16)} {t : Text} (h : ShowsOf shows t) {u : UInt16}
    (hu : u ∈ silenced shows) : u = 0x20 ∨ u ∈ t := by
  induction h with
  | nil => cases hu
  | @cons s v _ _ hs _ ih =>
    obtain rfl | hu := List.mem_cons.mp hu
    · obtain rfl | rfl := hs
      · exact .inl rfl
      · exact .inr List.mem_cons_self
    · exact (ih hu).imp_right (List.mem_cons_of_mem v)

/-- A unit that is no space stands where the silenced line has it. -/
theorem ShowsOf.cons_of_silenced {shows : List (Option UInt16)} {t : Text} (h : ShowsOf shows t) {u : UInt16}
    {rest : Text} (hu : u ≠ 0x20) (hs : silenced shows = u :: rest) :
    ∃ shows' t', t = u :: t' ∧ silenced shows' = rest ∧ ShowsOf shows' t' := by
  cases h with
  | nil => cases hs
  | @cons s v shows' t' hv h' =>
    obtain ⟨hd, rfl⟩ := List.cons_eq_cons.mp hs
    obtain rfl | rfl := hv
    · exact absurd hd.symm hu
    · exact ⟨shows', t', by rw [← hd]; rfl, rfl, h'⟩

section Braces

variable (o : Options)

theorem showsOf_shown (m : Mode) (t : Text) : ShowsOf (shown o m t) t := by
  unfold ShowsOf
  fun_induction shown o m t <;> simp_all
  all_goals exact showsOf_hidden _

/-- Outside a comment the next unit is shown. -/
theorem head?_shown {m : Mode} (hm : m ≠ .comment) (t : Text) : (shown o m t).head? = t.head?.map some := by
  fun_cases shown o m t <;> simp_all

theorem shown_cons {m : Mode} (hm : m ≠ .comment) (u : UInt16) (t : Text) :
    ∃ shows, shown o m (u :: t) = some u :: shows :=
  List.head?_eq_some_iff.mp (head?_shown o hm (u :: t))

theorem shown_literal {n : Nat} {t : Text} (hn : n < t.length) :
    shown o (.literal n) t = (t.take (n + 1)).map some ++ shown o .code (t.drop (n + 1)) := by
  induction n generalizing t with
  | zero =>
    cases t with
    | nil => simp at hn
    | cons u t => simp
  | succ n ih =>
    cases t with
    | nil => simp at hn
    | cons u t => simpa using ih (by simpa using hn)

/-- A backslash opens nothing. -/
theorem shown_backslash (t : Text) : shown o .code (unit '\\' :: t) = some (unit '\\') :: shown o .code t := by
  have h (c : Char) (hc : c ∈ ['/', '#', '"', '`', '\'']) : (unit '\\' == unit c) = false := by
    simp only [List.mem_cons, List.not_mem_nil, or_false] at hc
    obtain rfl | rfl | rfl | rfl | rfl := hc <;> decide
  cases t <;> simp [opened, h]

/-- A character literal is what stands there up to its closing quote, whatever follows. -/
theorem exists_literal {t : Text} {n : Nat} (h : literalLength? t = some n) :
    ∃ literal rest, t = literal ++ rest ∧ literal.length = n + 1 ∧
      ∀ rest', literalLength? (literal ++ rest') = some n := by
  revert h
  fun_cases literalLength? t with
  | case1 u v rest hu hv =>
    intro h
    simp only [Bool.and_eq_true, Bool.not_eq_true', List.elem_eq_mem, decide_eq_true_eq] at hv
    obtain ⟨a, b, rfl, ha⟩ := List.eq_append_cons_of_mem hv.2
    have hwhile (rest' : Text) : (a ++ unit '\'' :: rest').takeWhile (· != unit '\'') = a := by
      rw [List.takeWhile_append_of_pos (fun w hw => by simpa using ne_of_mem_of_not_mem hw ha)]
      simp
    obtain rfl : 2 + a.length = n := by simpa [hwhile] using h
    refine ⟨u :: v :: a ++ [unit '\''], b, by simp, by simp; omega, fun rest' => ?_⟩
    simp [literalLength?, hu, hv.1, hwhile]
  | case3 u v rest hu hv =>
    intro h
    obtain rfl : 1 = n := by simpa using h
    exact ⟨[u, v], rest, rfl, rfl, fun rest' => by simp [literalLength?, hu, hv]⟩
  | case2 | case4 | case5 => intro h; cases h

/-- A character literal opens in the silenced line too, and is as long. -/
theorem literalLength?_literal {t : Text} {n : Nat} (h : literalLength? t = some n) :
    literalLength? (silenced (shown o (.literal n) t)) = some n := by
  obtain ⟨literal, rest, rfl, hlength, hliteral⟩ := exists_literal h
  rw [shown_literal o (by simp; omega), ← hlength, List.take_left, List.drop_left]
  simpa [silenced, Function.comp_def] using hliteral (silenced (shown o .code rest))

/-- Where no character literal opens, none opens in the silenced line. -/
theorem literalLength?_silenced {t : Text} (h : literalLength? t = none) :
    literalLength? (silenced (shown o .code t)) = none := by
  match t with
  | [] => rfl
  | [u] => rfl
  | u :: v :: rest =>
    have hall := showsOf_shown o .code (u :: v :: rest)
    obtain rfl | hu := eq_or_ne u (unit '\\')
    · -- An escape opens no comment, so the unit after it is shown.
      obtain ⟨shows, hs⟩ := shown_cons o (m := .code) (by decide) v rest
      rw [shown_backslash, hs] at hall ⊢
      have hrest : ShowsOf shows rest := (List.forall₂_cons.mp (List.forall₂_cons.mp hall).2).2
      have hquote : unit '\'' ∈ silenced shows → unit '\'' ∈ rest := fun hq =>
        (hrest.mem hq).resolve_left (by decide)
      simp only [literalLength?, silenced_cons, Option.getD_some, beq_self_eq_true, if_true] at h ⊢
      simp only [ite_eq_right_iff, reduceCtorEq, imp_false, Bool.and_eq_true, List.elem_eq_mem, decide_eq_true_eq,
        not_and] at h ⊢
      exact fun hv hq => h hv (hquote hq)
    · obtain ⟨shows, hs⟩ := shown_cons o (m := .code) (by decide) u (v :: rest)
      rw [hs] at hall ⊢
      obtain ⟨s, shows, hv, -, rfl⟩ := List.forall₂_cons_right_iff.mp (List.forall₂_cons.mp hall).2
      obtain rfl | rfl := hv
      · simp only [literalLength?, silenced_cons, Option.getD_some, Option.getD_none, beq_eq_false_iff_ne.mpr hu,
          show (0x20 == unit '\'') = false by decide, Bool.and_false, Bool.false_eq_true, if_false]
      · simpa [literalLength?, silenced_cons, hu] using h

theorem opened_ne_comment (u : UInt16) (t : Text) : opened o u t ≠ .comment := by
  unfold opened
  split_ifs <;> [skip; split; split] <;> simp

theorem opened_silenced (u : UInt16) (t : Text) :
    opened o u (silenced (shown o (opened o u t) t)) = opened o u t := by
  by_cases hstring : (u == unit '"' || (o.backtickStrings && u == unit '`')) = true
  · simp only [opened, if_pos hstring]
  by_cases hquote : (o.charLiterals && u == unit '\'') = true
  · simp only [opened, if_neg hstring, if_pos hquote]
    cases hn : literalLength? t with
    | none => simp only [literalLength?_silenced o hn]
    | some n => simp only [literalLength?_literal o hn]
  · simp only [opened, if_neg hstring, if_neg hquote]

theorem codeLine_code {u : UInt16} {t : Text}
    (hline : ¬(u == unit '/' && t.head? == some (unit '/')) = true)
    (hhash : ¬(o.hashComments && u == unit '#') = true)
    (hblock : ¬(u == unit '/' && t.head? == some (unit '*')) = true) :
    codeLine o .code (u :: t) =
      (u :: (codeLine o (opened o u t) t).1, (codeLine o (opened o u t) t).2) := by
  cases t <;> simp only [codeLine, opened] <;> rw [if_neg hline, if_neg hhash, if_neg hblock] <;>
    split_ifs <;> first | rfl | cases literalLength? _ <;> rfl

/-- A line is masked as it is with spaces for its hidden units. -/
theorem codeLine_silenced (m : Mode) (t : Text) : codeLine o m (silenced (shown o m t)) = codeLine o m t := by
  fun_induction shown o m t with
  | case1 | case2 | case5 | case8 | case9 | case10 => simp_all [silenced, codeLine]
  | case3 u v rest h ih => simp_all [silenced, codeLine]
  | case6 q u v rest h ih => simp_all [silenced, codeLine]
  | case4 u v rest h ih =>
    rw [silenced_cons, Option.getD_none, codeLine_comment o (by decide), ih]
    simp [codeLine, h]
  | case7 q u v rest h ih =>
    rw [silenced_cons, Option.getD_some, codeLine_string o h, codeLine_string o h, ih]
  | case11 u v rest h => simp_all [silenced, codeLine, blankOut]
  | case12 u v rest _ h => simp [silenced, codeLine, blankOut, h]
  | case13 u v rest hline _ h ih =>
    have hhash : unit '/' ≠ unit '#' := by decide
    have hstar : unit '*' ≠ unit '/' := by decide
    simp_all [silenced, codeLine]
  | case14 u v rest hline hhash hblock ih =>
    have step (t : Text) (ht : t.head? = some v) :=
      codeLine_code o (u := u) (t := t) (by simpa [ht] using hline) hhash (by simpa [ht] using hblock)
    have hopened := opened_silenced o u (v :: rest)
    obtain ⟨shows, hs⟩ := shown_cons o (opened_ne_comment o u (v :: rest)) v rest
    rw [hs] at ih hopened ⊢
    rw [silenced_cons, Option.getD_some, step _ rfl, step _ rfl, hopened, ih]

theorem length_codeFrom (m : Mode) (ls : List Text) : (codeFrom o m ls).length = ls.length := by
  induction ls generalizing m with
  | nil => rfl
  | cons t ls ih => simp only [codeFrom, List.length_cons, ih]

theorem codeFrom_silenced (m : Mode) (ls : List Text) :
    codeFrom o m ((shownFrom o m ls).map silenced) = codeFrom o m ls := by
  induction ls generalizing m with
  | nil => rfl
  | cons t ls ih => simp only [shownFrom, List.map_cons, codeFrom, codeLine_silenced, ih]

theorem length_shownFrom (m : Mode) (ls : List Text) : (shownFrom o m ls).length = ls.length := by
  induction ls generalizing m with
  | nil => rfl
  | cons t ls ih => simp only [shownFrom, List.length_cons, ih]

theorem code_congr {ls ls' : List Text} (h : shownFrom o .code ls = shownFrom o .code ls') :
    code o ls = code o ls' := by
  rw [code, ← codeFrom_silenced, h, codeFrom_silenced, code]

end Braces

section Indentation

theorem showsOf_shownIndented (m : IndentedMode) (t : Text) : ShowsOf (shownIndented m t) t := by
  unfold ShowsOf
  fun_induction shownIndented m t <;> simp_all
  exact showsOf_hidden _

theorem head?_shownIndented (m : IndentedMode) (t : Text) : (shownIndented m t).head? = t.head?.map some := by
  fun_cases shownIndented m t <;> simp_all

theorem shownIndented_cons (m : IndentedMode) (u : UInt16) (t : Text) :
    ∃ shows, shownIndented m (u :: t) = some u :: shows :=
  List.head?_eq_some_iff.mp (head?_shownIndented m (u :: t))

/-- Two units before any other inside a triple-quoted string are shown. -/
theorem shownIndented_triple (q u v : UInt16) (t : Text) :
    ∃ shows, shownIndented (.triple q) (u :: v :: t) = some u :: some v :: shows := by
  cases t with
  | nil => exact ⟨[], rfl⟩
  | cons w t =>
    rw [shownIndented]
    split_ifs
    · exact ⟨_, rfl⟩
    · obtain ⟨shows, hs⟩ := shownIndented_cons (.triple q) v (w :: t)
      exact ⟨shows, by rw [hs]⟩

/-- Where three quotes open a string they do so in the silenced line, and nowhere else. -/
theorem take_silenced {q : UInt16} (hq : q ≠ 0x20) (t : Text) :
    ((silenced (shownIndented (if t.take 2 == [q, q] then .opening q 1 else .string q) t)).take 2 == [q, q]) =
      (t.take 2 == [q, q]) := by
  have htwo (s : Text) (hs : s.take 2 = [q, q]) : s = q :: q :: s.drop 2 := by
    conv_lhs => rw [← List.take_append_drop 2 s, hs]
    rfl
  by_cases h : (t.take 2 == [q, q]) = true
  · rw [if_pos h, h, htwo t (beq_iff_eq.mp h)]
    simp [silenced]
  · rw [if_neg h, Bool.of_not_eq_true h, beq_eq_false_iff_ne]
    intro hs
    obtain ⟨shows, t', rfl, hs', hall⟩ := (showsOf_shownIndented (.string q) t).cons_of_silenced hq (htwo _ hs)
    obtain ⟨_, t'', rfl, -, -⟩ := hall.cons_of_silenced hq hs'
    exact h (by simp)

theorem indentedLine_silenced (m : IndentedMode) (t : Text) :
    indentedLine m (silenced (shownIndented m t)) = indentedLine m t := by
  fun_induction shownIndented m t with
  | case1 | case3 | case4 | case5 | case7 => simp_all [silenced, indentedLine]
  | case2 q left u rest ih => cases left <;> simp_all [silenced, indentedLine]
  | case6 q u v w rest h ih =>
    obtain ⟨shows, hs⟩ := shownIndented_triple q v w rest
    rw [hs] at ih ⊢
    simp only [silenced_cons, Option.getD_some] at ih ⊢
    simp only [indentedLine]
    rw [if_neg h, if_neg h, ih]
  | case8 q u v rest h ih =>
    obtain ⟨hq, hu⟩ : u ≠ q ∧ u = unit '\\' := by simpa using h
    subst hu
    simp [silenced, indentedLine, hq, ← ih]
  | case9 q u v rest h ih =>
    rw [silenced_cons, Option.getD_some, indentedLine_string h, indentedLine_string h, ih]
  | case10 u rest hhash => simp [silenced, indentedLine, hhash]
  | case11 u rest hhash hquote ih =>
    have hu : u ≠ 0x20 := by
      rintro rfl
      exact absurd hquote (by decide)
    simp only [silenced_cons, Option.getD_some, indentedLine]
    rw [if_neg hhash, if_pos hquote, if_neg hhash, if_pos hquote, take_silenced hu, ih]
  | case12 u rest hhash hquote ih =>
    simp only [silenced_cons, Option.getD_some, indentedLine]
    rw [if_neg hhash, if_neg hquote, if_neg hhash, if_neg hquote, ih]

/-- A line begins outside comments, or with the sign of one. -/
theorem head?_trimStart_silenced (m : IndentedMode) (t : Text) :
    (trimStart (silenced (shownIndented m t))).head? = (trimStart t).head? := by
  fun_induction shownIndented m t with
  | case1 | case3 | case4 | case7 => rfl
  | case2 q left u rest ih | case6 q u v w rest h ih | case9 q u v rest h ih
  | case11 u rest _ _ ih | case12 u rest _ _ ih =>
    exact head?_trimStart_cons u ih
  | case5 q u v w rest h ih =>
    exact head?_trimStart_cons u (head?_trimStart_cons v (head?_trimStart_cons w ih))
  | case8 q u v rest h ih => exact head?_trimStart_cons u (head?_trimStart_cons v ih)
  | case10 u rest h =>
    have hsign : isBlank u = false := by rw [beq_iff_eq.mp h]; decide
    simp [silenced, trimStart, hsign]

theorem length_indentedFrom (m : IndentedMode) (ls : List Text) : (indentedFrom m ls).length = ls.length := by
  induction ls generalizing m with
  | nil => rfl
  | cons t ls ih => simp only [indentedFrom, List.length_cons, ih]

theorem indentedFrom_silenced (m : IndentedMode) (ls : List Text) :
    indentedFrom m ((shownIndentedFrom m ls).map silenced) = indentedFrom m ls := by
  induction ls generalizing m with
  | nil => rfl
  | cons t ls ih => simp only [shownIndentedFrom, List.map_cons, indentedFrom, indentedLine_silenced, ih]

theorem length_shownIndentedFrom (m : IndentedMode) (ls : List Text) : (shownIndentedFrom m ls).length = ls.length := by
  induction ls generalizing m with
  | nil => rfl
  | cons t ls ih => simp only [shownIndentedFrom, List.length_cons, ih]

theorem indented_congr {ls ls' : List Text} (h : shownIndentedFrom .code ls = shownIndentedFrom .code ls') :
    indented ls = indented ls' := by
  rw [indented, ← indentedFrom_silenced, h, indentedFrom_silenced, indented]

end Indentation

end Mask
end AnnotationIndex
