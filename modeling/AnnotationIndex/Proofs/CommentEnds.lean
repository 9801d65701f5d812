import AnnotationIndex.Proofs.LineKinds

/-!
Where block comments end. A line outside comments that begins with `/*` opens one, and the first `*/` behind these
two units closes it, on that line or on a later one. The classifier of lines reads slash comments so, with one
exception: it looks for the end of a comment behind all of `/**`, and so does not see the end of the comment `/**/`.
-/
namespace AnnotationIndex
open Text

namespace BlockComment
variable {ls : List Text} {raw t : Text} {i : Nat}

def opens (raw : Text) : Bool := startsWith (trim raw) "/*"

def closes (raw : Text) : Bool := Text.contains ((trim raw).drop 2) "*/"

def openAfter : Bool → Text → Bool
  | true, raw => !Text.contains raw "*/"
  | false, raw => opens raw && !closes raw

def openBefore (ls : List Text) (i : Nat) : Bool := (ls.take i).foldl openAfter false

def kindIn : Bool → Text → LineKind
  | true, _ => .comment
  | false, raw =>
    if (trim raw).isEmpty then .blank
    else if opens raw || startsWith (trim raw) "//" then .comment
    else .code

def kinds (t : Text) : List LineKind := (lines t).mapIdx fun i raw => kindIn (openBefore (lines t) i) raw

/-- Whether a line begins with an empty comment, and no other comment ends on it. -/
def hollow (raw : Text) : Bool := startsWith (trim raw) "/**/" && !Text.contains ((trim raw).drop 4) "*/"

/-- Whether a comment is taken to be open after a line: the empty comment of a hollow line is taken to go on. -/
def takenAfter (taken : Bool) (raw : Text) : Bool := openAfter taken raw || (!taken && hollow raw)

def takenBefore (ls : List Text) (i : Nat) : Bool := (ls.take i).foldl takenAfter false

/-- An empty comment begins a line outside comments. -/
def Misread (ls : List Text) (i : Nat) : Prop := ∃ raw, ls[i]? = some raw ∧ openBefore ls i = false ∧ hollow raw = true

theorem openBefore_succ (h : ls[i]? = some raw) : openBefore ls (i + 1) = openAfter (openBefore ls i) raw :=
  foldl_take_succ openAfter false h

theorem takenBefore_succ (h : ls[i]? = some raw) : takenBefore ls (i + 1) = takenAfter (takenBefore ls i) raw :=
  foldl_take_succ takenAfter false h

theorem getElem?_kinds (t : Text) (i : Nat) :
    (kinds t)[i]? = (lines t)[i]?.map (kindIn (openBefore (lines t) i)) := by
  rw [kinds, List.getElem?_mapIdx]

open CommentLine CommentSyntax

theorem startsWith_closing (u : UInt16) (t : Text) :
    startsWith (u :: t) "*/" = (u == unit '*' && t.head? == some (unit '/')) := by
  have hclosing : ("*/" : Text) = [unit '*', unit '/'] := by decide
  cases t <;> simp [startsWith, hclosing, List.isPrefixOf, BEq.comm (a := unit '*'), BEq.comm (a := unit '/')]

theorem contains_cons (u : UInt16) (t : Text) :
    Text.contains (u :: t) "*/" = (u == unit '*' && t.head? == some (unit '/') || Text.contains t "*/") := by
  rw [← startsWith_closing, Text.contains, Text.contains, find?, startsWith]
  split <;> simp_all

theorem infix_blanks_append {bs s : Text} (hbs : ∀ u ∈ bs, isBlank u = true) (h : ("*/" : Text) <:+: bs ++ s) :
    ("*/" : Text) <:+: s := by
  induction bs with
  | nil => exact h
  | cons u bs ih =>
    obtain ⟨hu, hrest⟩ := List.forall_mem_cons.mp hbs
    rcases List.infix_cons_iff.mp h with hstart | hinner
    · have hstar : u = unit '*' := by
        obtain ⟨rest, hrest⟩ := hstart
        exact (List.cons.inj hrest).1.symm
      exact absurd hu (by rw [hstar]; decide)
    · exact ih hrest hinner

theorem contains_trim (raw : Text) : Text.contains (trim raw) "*/" = Text.contains raw "*/" := by
  obtain ⟨front, back, hfront, hback, hsplit⟩ := exists_blanks raw
  rw [Bool.eq_iff_iff, Text.contains, Text.contains, isSome_find?, isSome_find?]
  constructor
  · exact fun h => hsplit ▸ h.trans ((List.prefix_append _ back).isInfix.trans (List.suffix_append front _).isInfix)
  · exact fun h => infix_append_blanks hback (infix_blanks_append hfront (hsplit ▸ h))

theorem isSome_snd_openBlock (d : BlockDelimiter) (after : Text) :
    (openBlock d after).2.isSome = !Text.contains after d.closing := by
  rw [openBlock, Text.contains]
  cases find? d.closing after <;> rfl

/-- Behind `/*`, a star is left out in the search for the end of the comment; that matters if a slash follows. -/
theorem contains_drop_star (t : Text) :
    (!Text.contains (if t.head? = some (unit '*') then t.drop 1 else t) "*/") =
      (!Text.contains t "*/" || (startsWith t "*/" && !Text.contains (t.drop 2) "*/")) := by
  have hne : unit '/' ≠ unit '*' := by decide
  match t with
  | [] => rfl
  | [u] => by_cases hu : u = unit '*' <;> simp [startsWith_closing, contains_cons, hu]
  | u :: v :: t =>
    by_cases hu : u = unit '*' <;> by_cases hv : v = unit '/' <;>
      simp [startsWith_closing, contains_cons, hu, hv, hne, beq_eq_false_iff_ne.mpr]

section Outside
variable {s : CommentSyntax} {d : BlockDelimiter}

theorem outsideBlock_delimiter (hblank : trim raw ≠ []) (hmarker : s.marker? (trim raw) = none)
    (hblock : s.block.find? (fun d => startsWith (trim raw) d.opening) = some d) :
    (outsideBlock s raw).1 = .comment ∧
      (outsideBlock s raw).2.2 = (openBlock d ((trim raw).drop d.opening.length)).2 := by
  simp [outsideBlock, hblank, hmarker, hblock]

theorem outsideBlock_marker (hblock : s.block.find? (fun d => startsWith (trim raw) d.opening) = none) :
    (outsideBlock s raw).1 =
        (if (trim raw).isEmpty then .blank else if (s.marker? (trim raw)).isSome then .comment else .code) ∧
      (outsideBlock s raw).2.2 = none := by
  rw [outsideBlock, hblock]
  cases s.marker? (trim raw) <;> cases (trim raw).isEmpty <;> exact ⟨rfl, rfl⟩

end Outside

theorem isSome_marker?_slashes (t : Text) : (slashes.marker? t).isSome = startsWith t "//" := by
  cases h : startsWith t "//" with
  | true =>
    simp only [marker?, slashes, List.find?, h]
    cases startsWith t "///" <;> cases startsWith t "//!" <;> rfl
  | false =>
    have hlonger : ∀ m ∈ slashes.line, startsWith t m = false := by
      have hmarkers : ∀ m ∈ slashes.line, ("//" : Text) <+: m := by decide
      exact fun m hm => Bool.eq_false_iff.mpr fun hlong => by simp [startsWith_mono (hmarkers m hm) hlong] at h
    have hnone : slashes.line.find? (fun m => startsWith t m) = none :=
      List.find?_eq_none.mpr fun m hm => by simp [hlonger m hm]
    rw [marker?, hnone]
    rfl

theorem startsWith_opening (r : Text) : startsWith (ofString "/*" ++ r) "/**" = (r.head? == some (unit '*')) := by
  cases r with
  | nil => rfl
  | cons u r => exact (Bool.and_true _).trans BEq.comm

theorem find?_slashes (r : Text) : slashes.block.find? (fun d => startsWith (ofString "/*" ++ r) d.opening) =
    some (if r.head? = some (unit '*') then ⟨"/**", "*/"⟩ else ⟨"/*", "*/"⟩) := by
  simp only [slashes, slashStarBlocks, List.find?, startsWith_opening]
  cases h : r.head? == some (unit '*') <;> simp_all
  rfl

theorem outsideBlock_slashes (raw : Text) : (outsideBlock slashes raw).1 = kindIn false raw ∧
    (outsideBlock slashes raw).2.2.isSome = (openAfter false raw || hollow raw) := by
  rw [kindIn, openAfter, opens, closes, hollow]
  cases hopen : startsWith (trim raw) "/*" with
  | true =>
    obtain ⟨r, hr⟩ := List.isPrefixOf_iff_prefix.mp hopen
    have hmarker : slashes.marker? (trim raw) = none := by
      rw [← Option.not_isSome_iff_eq_none, isSome_marker?_slashes, ← hr]
      exact Bool.false_ne_true
    have hblank : trim raw ≠ [] := by rw [← hr]; exact List.cons_ne_nil _ _
    obtain ⟨hkind, hstate⟩ := outsideBlock_delimiter hblank hmarker (hr ▸ find?_slashes r)
    refine ⟨by simp [hkind, hblank], ?_⟩
    have hempty : startsWith (trim raw) "/**/" = startsWith r "*/" := by rw [← hr]; rfl
    have htwo : (trim raw).drop 2 = r := by rw [← hr]; rfl
    have hfour : (trim raw).drop 4 = r.drop 2 := by rw [← hr]; rfl
    rw [hstate, isSome_snd_openBlock, hempty, htwo, hfour, Bool.true_and, ← contains_drop_star]
    split <;> rw [← hr] <;> rfl
  | false =>
    have hlonger {long : Text} (hlong : "/*" <+: long) : startsWith (trim raw) long = false :=
      Bool.eq_false_iff.mpr fun h => by simp [startsWith_mono hlong h] at hopen
    have hblock : slashes.block.find? (fun d => startsWith (trim raw) d.opening) = none := by
      have hopenings : ∀ d ∈ slashes.block, ("/*" : Text) <+: d.opening := by decide
      exact List.find?_eq_none.mpr fun d hd => by simp [hlonger (hopenings d hd)]
    obtain ⟨hkind, hstate⟩ := outsideBlock_marker hblock
    have hempty : startsWith (trim raw) "/**/" = false := hlonger (by decide)
    rw [hkind, hstate, isSome_marker?_slashes, hempty]
    exact ⟨by simp, by simp⟩

structure Alike (open? : Option BlockDelimiter) (taken : Bool) : Prop where
  isSome : open?.isSome = taken
  closing : ∀ d ∈ open?, d.closing = "*/"

theorem Alike.after {open? : Option BlockDelimiter} {taken : Bool} (h : Alike open? taken) (raw : Text) :
    Alike (stillOpen slashes open? raw) (takenAfter taken raw) := by
  obtain ⟨rfl, hclosing⟩ := h
  cases open? with
  | none =>
    refine ⟨(outsideBlock_slashes raw).2, fun d hd => ?_⟩
    have hall : ∀ d ∈ slashStarBlocks, d.closing = "*/" := by decide
    exact hall d (stillOpen_none hd).1
  | some d =>
    have hd : d.closing = "*/" := hclosing d rfl
    have hstill : stillOpen slashes (some d) raw = if Text.contains raw "*/" then none else some d := by
      rw [stillOpen, insideBlock, hd, contains_trim]
      split <;> rfl
    rw [hstill, Option.isSome_some, takenAfter, openAfter]
    cases Text.contains raw "*/" with
    | true => exact ⟨rfl, fun d hd => absurd hd (Option.not_mem_none d)⟩
    | false => exact ⟨rfl, hclosing⟩

theorem alike_takenBefore (ls : List Text) (i : Nat) : Alike (CommentLine.openBefore slashes ls i) (takenBefore ls i) :=
  List.foldl_rel ⟨rfl, nofun⟩ fun raw _ _ _ h => h.after raw

theorem Alike.kindIn {open? : Option BlockDelimiter} {taken : Bool} (h : Alike open? taken) (raw : Text) :
    CommentLine.kindIn slashes open? raw = kindIn taken raw := by
  obtain ⟨rfl, -⟩ := h
  cases open? with
  | none => exact (outsideBlock_slashes raw).1
  | some d => rfl

theorem getElem?_kinds_slashes (t : Text) (i : Nat) :
    (CommentLine.kinds slashes t)[i]? = (lines t)[i]?.map (kindIn (takenBefore (lines t) i)) := by
  rw [CommentLine.getElem?_kinds]
  exact congrArg (Option.map · _) (funext (alike_takenBefore (lines t) i).kindIn)

/-- Above the first hollow line outside comments nothing is taken to be open that is not. -/
theorem takenBefore_eq (h : ∀ j < i, ¬Misread ls j) : takenBefore ls i = openBefore ls i := by
  induction i with
  | zero => rfl
  | succ i ih =>
    have hbefore := ih fun j hj => h j (by omega)
    cases hraw : ls[i]? with
    | none => simpa [takenBefore, openBefore, List.take_add_one, hraw] using hbefore
    | some raw =>
      rw [takenBefore_succ hraw, openBefore_succ hraw, takenAfter, hbefore]
      cases hopen : openBefore ls i with
      | true => simp
      | false =>
        have hnot : hollow raw = false :=
          Bool.eq_false_iff.mpr fun hhollow => h i (by omega) ⟨raw, hraw, hopen, hhollow⟩
        simp [hnot]

theorem closes_of_hollow (h : hollow raw = true) : closes raw = true := by
  obtain ⟨hstart, -⟩ : startsWith (trim raw) "/**/" = true ∧ _ := by simpa [hollow] using h
  obtain ⟨rest, hrest⟩ := List.isPrefixOf_iff_prefix.mp hstart
  rw [closes, ← hrest]
  rfl

/-- The first hollow line outside comments is taken to leave its comment open, and does not. -/
theorem takenBefore_of_misread (h : Misread ls i) (hbefore : ∀ j < i, ¬Misread ls j) :
    takenBefore ls (i + 1) = true ∧ openBefore ls (i + 1) = false := by
  obtain ⟨raw, hraw, hopen, hhollow⟩ := h
  rw [takenBefore_succ hraw, openBefore_succ hraw, takenBefore_eq hbefore, hopen]
  simp [takenAfter, openAfter, closes_of_hollow hhollow, hhollow]

/-- The kind of a line is the one that it has after the comments that are taken to be open. These are the comments
that are open if and only if no hollow line stands outside comments. Every line down to the first such line has the
kind that it should have, and the line below that one is taken for a comment. -/
theorem kinds_slashes (t : Text) :
    (∀ i, (CommentLine.kinds slashes t)[i]? = (lines t)[i]?.map (kindIn (takenBefore (lines t) i))) ∧
      ((∀ i, takenBefore (lines t) i = openBefore (lines t) i) ↔ ∀ i, ¬Misread (lines t) i) ∧
      ∀ i, (∀ j < i, ¬Misread (lines t) j) → (CommentLine.kinds slashes t)[i]? = (kinds t)[i]? ∧
        (Misread (lines t) i → ∀ raw, (lines t)[i + 1]? = some raw →
          (CommentLine.kinds slashes t)[i + 1]? = some .comment) := by
  refine ⟨getElem?_kinds_slashes t, ⟨fun hsame i => ?_, fun hnone i => takenBefore_eq fun j _ => hnone j⟩,
    fun i hbefore => ⟨?_, fun hmisread raw hraw => ?_⟩⟩
  · induction i using Nat.strong_induction_on with
    | _ i ih =>
      intro hmisread
      obtain ⟨htaken, hclosed⟩ := takenBefore_of_misread hmisread ih
      simp [hsame, hclosed] at htaken
  · rw [getElem?_kinds_slashes, getElem?_kinds, takenBefore_eq hbefore]
  · rw [getElem?_kinds_slashes, hraw, (takenBefore_of_misread hmisread hbefore).1]
    rfl

/-- The third line is hollow: it is read as it should be, and the call below it is not. -/
theorem kinds_slashes_reopened :
    (CommentLine.kinds slashes "/* a\n */ b\n/**/\nf()\n")[2]? = (kinds "/* a\n */ b\n/**/\nf()\n")[2]? ∧
      (CommentLine.kinds slashes "/* a\n */ b\n/**/\nf()\n")[3]? = some .comment := by
  have hbefore : ∀ j < 2, ¬Misread (lines "/* a\n */ b\n/**/\nf()\n") j := by
    rintro j hj ⟨raw, hraw, -, hhollow⟩
    have hfull : ∀ raw ∈ (lines "/* a\n */ b\n/**/\nf()\n").take 2, hollow raw = false := by decide
    have hmem := List.mem_of_getElem? ((List.getElem?_take_of_lt hj).trans hraw)
    simp [hfull raw hmem] at hhollow
  obtain ⟨hkind, hbelow⟩ := (kinds_slashes "/* a\n */ b\n/**/\nf()\n").2.2 2 hbefore
  exact ⟨hkind, hbelow ⟨_, rfl, by decide, by decide⟩ _ rfl⟩

/-- The line below an empty comment is code, and is taken for a comment. -/
theorem kinds_empty_comment : kinds "/**/\n@acp:summary x\n" = [.comment, .code] ∧
    CommentLine.kinds slashes "/**/\n@acp:summary x\n" = [.comment, .comment] := by decide

end BlockComment
end AnnotationIndex
