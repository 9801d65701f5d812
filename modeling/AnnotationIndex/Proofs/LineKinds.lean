import AnnotationIndex.Comment.Line
import AnnotationIndex.Proofs.CommentRegions

/-!
Where the two readings of block comments agree. Lines are classified without regard to strings and to what stands
before a comment; masking follows strings. A line that is classified as lying in an open block comment begins in a
comment for masking too, if no line above it begins with a `/*` that the two take for different things.
-/
namespace AnnotationIndex
open Text

namespace Text

theorem isSome_find? (needle t : Text) : (find? needle t).isSome = true ↔ needle <:+: t := by
  induction t with
  | nil => cases needle <;> simp [find?]
  | cons u t ih =>
    rw [find?, List.infix_cons_iff, ← ih]
    by_cases h : needle.isPrefixOf (u :: t) = true
    · simp [h, List.isPrefixOf_iff_prefix.mp h]
    · simp [h, mt List.isPrefixOf_iff_prefix.mpr h]

theorem blanks_append_trimStart (t : Text) : ∃ bs, (∀ u ∈ bs, isBlank u = true) ∧ t = bs ++ trimStart t :=
  ⟨t.takeWhile isBlank, fun _ => List.mem_takeWhile_imp, (List.takeWhile_append_dropWhile ..).symm⟩

theorem trimStart_blanks {bs : Text} (h : ∀ u ∈ bs, isBlank u = true) (t : Text) : trimStart (bs ++ t) = trimStart t :=
  List.dropWhile_append_of_pos h

theorem trim_append_blanks (t : Text) : ∃ bs, (∀ u ∈ bs, isBlank u = true) ∧ trimStart t = trim t ++ bs := by
  refine ⟨((trimStart t).reverse.takeWhile isBlank).reverse, fun u hu => ?_, ?_⟩
  · exact List.mem_takeWhile_imp (List.mem_reverse.mp hu)
  · rw [trim, trimEnd, ← List.reverse_append, List.takeWhile_append_dropWhile, List.reverse_reverse]

theorem startsWith_trimStart {t head : Text} (h : startsWith (trim t) head = true) :
    startsWith (trimStart t) head = true := by
  obtain ⟨bs, -, hbs⟩ := trim_append_blanks t
  rw [startsWith, List.isPrefixOf_iff_prefix] at h ⊢
  rw [hbs]
  exact h.trans (List.prefix_append _ _)

theorem startsWith_mono {t short long : Text} (hshort : short <+: long) (h : startsWith t long = true) :
    startsWith t short = true :=
  List.isPrefixOf_iff_prefix.mpr (hshort.trans (List.isPrefixOf_iff_prefix.mp h))

theorem not_isBlank_of_isWord {u : UInt16} (h : isWord u = true) : isBlank u = false := by
  have hA : unit 'A' = 65 := rfl
  have hZ : unit 'Z' = 90 := rfl
  have ha : unit 'a' = 97 := rfl
  have hz : unit 'z' = 122 := rfl
  have h0 : unit '0' = 48 := rfl
  have h9 : unit '9' = 57 := rfl
  have h_ : unit '_' = 95 := rfl
  simp only [isWord, isLetter, isUpper, isLower, isDigit, isBlank, hA, hZ, ha, hz, h0, h9, h_, Bool.or_eq_true,
    Bool.or_eq_false_iff, Bool.and_eq_true, Bool.and_eq_false_iff, decide_eq_true_eq, decide_eq_false_iff_not,
    beq_iff_eq, beq_eq_false_iff_ne, UInt16.le_iff_toNat_le, ne_eq, ← UInt16.toNat_inj] at h ⊢
  simp at h ⊢
  omega

/-- One more line goes through a state that is carried from line to line. -/
theorem foldl_take_succ {σ : Type} {ls : List Text} {i : Nat} {raw : Text} (after : σ → Text → σ) (start : σ)
    (h : ls[i]? = some raw) : (ls.take (i + 1)).foldl after start = after ((ls.take i).foldl after start) raw := by
  rw [List.take_add_one, h, List.foldl_append]
  rfl

end Text

namespace CommentLine
variable {s : CommentSyntax} {ls : List Text} {i : Nat} {raw : Text}

def stillOpen (s : CommentSyntax) : Option BlockDelimiter → Text → Option BlockDelimiter
  | some d, raw => (insideBlock d raw).2
  | none, raw => (outsideBlock s raw).2.2

def openBefore (s : CommentSyntax) (ls : List Text) (i : Nat) : Option BlockDelimiter :=
  (ls.take i).foldl (stillOpen s) none

def kindIn (s : CommentSyntax) : Option BlockDelimiter → Text → LineKind
  | some _, _ => .comment
  | none, raw => (outsideBlock s raw).1

def kinds (s : CommentSyntax) (t : Text) : List LineKind := (classify s t).map (·.kind)

theorem kinds_classifyFrom (s : CommentSyntax) (open? : Option BlockDelimiter) (n : Nat) (ls : List Text) (i : Nat) :
    ((classifyFrom s open? n ls).map (·.kind))[i]? = ls[i]?.map (kindIn s ((ls.take i).foldl (stillOpen s) open?)) := by
  induction ls generalizing open? n i with
  | nil => cases open? <;> rfl
  | cons raw ls ih => cases open? <;> cases i <;> first | rfl | exact ih ..

theorem getElem?_kinds (s : CommentSyntax) (t : Text) (i : Nat) :
    (kinds s t)[i]? = (lines t)[i]?.map (kindIn s (openBefore s (lines t) i)) := kinds_classifyFrom s none 1 (lines t) i

theorem openBefore_succ (h : ls[i]? = some raw) : openBefore s ls (i + 1) = stillOpen s (openBefore s ls i) raw :=
  foldl_take_succ (stillOpen s) none h

end CommentLine

namespace Mask
variable {o : Options} {ls : List Text} {i : Nat} {raw : Text}

def modeBefore (o : Options) (ls : List Text) (i : Nat) : Mode :=
  (ls.take i).foldl (fun m line => carry (codeLine o m line).2) .code

theorem getElem?_codeFrom (m : Mode) (ls : List Text) (i : Nat) :
    (codeFrom o m ls)[i]? = ls[i]?.map fun line =>
      (codeLine o ((ls.take i).foldl (fun m line => carry (codeLine o m line).2) m) line).1 := by
  induction ls generalizing m i with
  | nil => rfl
  | cons line ls ih =>
    cases i with
    | zero => rfl
    | succ i => exact ih _ i

theorem modeBefore_succ (h : ls[i]? = some raw) :
    modeBefore o ls (i + 1) = carry (codeLine o (modeBefore o ls i) raw).2 :=
  foldl_take_succ (fun m line => carry (codeLine o m line).2) .code h

def StringMode (o : Options) (m : Mode) : Prop :=
  ∀ q, m = .string q → q = unit '"' ∨ o.backtickStrings = true ∧ q = unit '`'

@[simp] theorem stringMode_code : StringMode o .code := fun _ h => nomatch h
@[simp] theorem stringMode_comment : StringMode o .comment := fun _ h => nomatch h
@[simp] theorem stringMode_literal (n : Nat) : StringMode o (.literal n) := fun _ h => nomatch h

@[simp] theorem stringMode_string {q : UInt16} :
    StringMode o (.string q) ↔ q = unit '"' ∨ o.backtickStrings = true ∧ q = unit '`' :=
  ⟨fun h => h q rfl, fun h _ he => Mode.string.inj he ▸ h⟩

theorem stringMode_codeLine {m : Mode} (hm : StringMode o m) (t : Text) : StringMode o (codeLine o m t).2 := by
  fun_induction codeLine o m t <;> simp_all

/-- A line begins in code, in a comment or in a string between backticks. -/
theorem modeBefore_cases (o : Options) (ls : List Text) (i : Nat) :
    modeBefore o ls i = .code ∨ modeBefore o ls i = .comment ∨
      o.backtickStrings = true ∧ modeBefore o ls i = .string (unit '`') := by
  have hcarry {m : Mode} (hm : StringMode o m) :
      carry m = .code ∨ carry m = .comment ∨ o.backtickStrings = true ∧ carry m = .string (unit '`') := by
    cases m with
    | string q =>
      obtain rfl | ⟨hb, rfl⟩ := stringMode_string.mp hm
      · exact .inl (by decide)
      · exact .inr (.inr ⟨hb, by decide⟩)
    | code | comment | literal => simp [carry]
  refine List.foldlRecOn
    (motive := fun m : Mode => m = .code ∨ m = .comment ∨ o.backtickStrings = true ∧ m = .string (unit '`'))
    (ls.take i) _ (.inl rfl) fun m hm raw _ => hcarry (stringMode_codeLine ?_ raw)
  rcases hm with rfl | rfl | ⟨hbacktick, rfl⟩ <;> simp [*]

theorem ne_of_isBlank {u v : UInt16} (hu : isBlank u = true) (hv : isBlank v = false) : u ≠ v := fun h => by
  rw [h, hv] at hu
  exact absurd hu (by decide)

theorem codeLine_blanks {bs : Text} (h : ∀ u ∈ bs, isBlank u = true) (t : Text) :
    codeLine o .code (bs ++ t) = (bs ++ (codeLine o .code t).1, (codeLine o .code t).2) := by
  induction bs with
  | nil => rfl
  | cons u bs ih =>
    have hu {v : UInt16} (hv : isBlank v = false) : u ≠ v := ne_of_isBlank (h u List.mem_cons_self) hv
    have hopened : opened o u (bs ++ t) = .code := by
      simp [opened, hu (v := unit '"') (by decide), hu (v := unit '`') (by decide), hu (v := unit '\'') (by decide)]
    rw [List.cons_append, codeLine_code o (by simp [hu (v := unit '/') (by decide)])
      (by simp [hu (v := unit '#') (by decide)]) (by simp [hu (v := unit '/') (by decide)]), hopened,
      ih fun v hv => h v (List.mem_cons_of_mem u hv)]
    rfl

theorem codeLine_comment_blanks {bs : Text} (h : ∀ u ∈ bs, isBlank u = true) (t : Text) :
    (codeLine o .comment (bs ++ t)).2 = (codeLine o .comment t).2 := by
  induction bs with
  | nil => rfl
  | cons u bs ih =>
    rw [List.cons_append, codeLine_comment o (ne_of_isBlank (h u List.mem_cons_self) (by decide))]
    exact ih fun v hv => h v (List.mem_cons_of_mem u hv)

theorem codeLine_opening (t : Text) :
    (codeLine o .code (unit '/' :: unit '*' :: t)).2 = (codeLine o .comment t).2 := by
  have hne : unit '*' ≠ unit '/' := by decide
  have hhash : unit '/' ≠ unit '#' := by decide
  simp [codeLine, hne, hhash]

/-- Inside a comment what would open one is text, unless it closes the comment. -/
theorem codeLine_comment_opening {t : Text} (h : t.head? ≠ some (unit '/')) :
    (codeLine o .comment (unit '/' :: unit '*' :: t)).2 = (codeLine o .comment t).2 := by
  rw [codeLine_comment o (by decide)]
  cases t with
  | nil => rfl
  | cons u t =>
    have hu : u ≠ unit '/' := by simpa using h
    simp [codeLine, hu]

/-- A comment goes on through a line without the delimiter that closes it. -/
theorem codeLine_comment_open {t : Text} (h : ¬("*/" : Text) <:+: t) : (codeLine o .comment t).2 = .comment := by
  induction t with
  | nil => rfl
  | cons u t ih =>
    have htail := ih fun ht => h (List.infix_cons ht)
    cases t with
    | nil => rfl
    | cons v rest =>
      have hclose : ¬(u == unit '*' && v == unit '/') = true := fun hc => by
        obtain ⟨rfl, rfl⟩ : u = unit '*' ∧ v = unit '/' := by simpa using hc
        exact h ⟨[], rest, rfl⟩
      rw [codeLine, if_neg hclose]
      exact htail

/-- A line of blanks stays one, wherever it begins. -/
theorem trimStart_codeLine_blanks (o : Options) (ls : List Text) (i : Nat) {bs : Text}
    (h : ∀ u ∈ bs, isBlank u = true) : trimStart (codeLine o (modeBefore o ls i) bs).1 = [] := by
  have hspace : isBlank 0x20 = true := by decide
  rcases modeBefore_cases o ls i with hm | hm | ⟨-, hm⟩ <;> rw [hm]
  · have hcode := codeLine_blanks (o := o) h []
    rw [List.append_nil] at hcode
    rw [hcode]
    exact List.dropWhile_eq_nil_iff.mpr fun u hu => h u (by simpa [codeLine] using hu)
  all_goals
    induction bs with
    | nil => rfl
    | cons u bs ih =>
      have hu {v : UInt16} (hv : isBlank v = false) : u ≠ v := ne_of_isBlank (h u List.mem_cons_self) hv
      have htail := ih fun v hv => h v (List.mem_cons_of_mem u hv)
      first
      | rw [codeLine_comment o (hu (by decide))]
        simpa [trimStart, hspace] using htail
      | rw [codeLine_string o (by simp)]
        simpa [trimStart, hspace, hu (v := unit '`') (by decide)] using htail

/-- A string between backticks hides what it begins with. -/
theorem head?_codeLine_backtick (t : Text) :
    (trimStart (codeLine o (.string (unit '`')) t).1).head? = none ∨
      (trimStart (codeLine o (.string (unit '`')) t).1).head? = some (unit '`') := by
  induction t with
  | nil => exact .inl rfl
  | cons u t ih =>
    rw [codeLine_string o (by simp)]
    by_cases hu : u = unit '`'
    · subst hu
      exact .inr rfl
    · simpa [hu, trimStart, show isBlank 0x20 = true by decide] using ih

end Mask

section Agreement
open CommentSyntax CommentLine Mask
variable {o : Options} {ls : List Text} {i : Nat} {raw : Text} {d : BlockDelimiter}

/-- A line that begins with `/*` where masking opens no comment, or one that it closes at once while the classifier
of lines still looks for its end. -/
def Mistaken (m : Mode) (raw : Text) : Prop :=
  startsWith (trim raw) "/*" = true ∧
    ((∃ q, m = .string q) ∨ startsWith (trim raw) "/**/" = true ∨
      m = .comment ∧ startsWith (trim raw) "/*/" = true)

theorem infix_append_blanks {s bs : Text} (hbs : ∀ u ∈ bs, isBlank u = true) (h : ("*/" : Text) <:+: s ++ bs) :
    ("*/" : Text) <:+: s := by
  induction bs using List.reverseRecOn with
  | nil => simpa using h
  | append_singleton bs u ih =>
    rw [← List.append_assoc, List.infix_concat_iff] at h
    rcases h with hsuffix | hinner
    · have hu : u = unit '/' := by
        obtain ⟨front, hfront⟩ := hsuffix
        have hlast : ("*/" : Text).getLast? = some (unit '/') := by decide
        simpa [hlast] using (congrArg List.getLast? hfront).symm
      exact absurd (hbs u (by simp)) (by rw [hu]; decide)
    · exact ih (fun v hv => hbs v (by simp [hv])) hinner

theorem exists_blanks (raw : Text) : ∃ front back : Text,
    (∀ u ∈ front, isBlank u = true) ∧ (∀ u ∈ back, isBlank u = true) ∧ raw = front ++ (trim raw ++ back) := by
  obtain ⟨front, hfront, hraw⟩ := blanks_append_trimStart raw
  obtain ⟨back, hback, htrim⟩ := trim_append_blanks raw
  exact ⟨front, back, hfront, hback, htrim ▸ hraw⟩

theorem snd_openBlock {after : Text} {d' : BlockDelimiter} (h : (openBlock d after).2 = some d') :
    d' = d ∧ ¬d.closing <:+: after := by
  rw [← isSome_find?, openBlock] at *
  cases hfind : find? d.closing after <;> simp_all

theorem snd_insideBlock {d' : BlockDelimiter} (h : (insideBlock d raw).2 = some d') :
    d' = d ∧ ¬d.closing <:+: trim raw := by
  rw [← isSome_find?]
  cases hfind : (find? d.closing (trim raw)).isSome <;> simp_all [insideBlock, Text.contains]

/-- A line outside block comments that leaves one open begins with what opens it, and does not close it. -/
theorem stillOpen_none (h : stillOpen slashes none raw = some d) :
    d ∈ slashStarBlocks ∧ startsWith (trim raw) d.opening = true ∧
      ¬d.closing <:+: (trim raw).drop d.opening.length := by
  simp only [stillOpen, outsideBlock] at h
  split at h
  · simp at h
  · cases hfind : slashes.block.find? fun d => startsWith (trim raw) d.opening with
    | none => cases hmarker : slashes.marker? (trim raw) <;> simp [hfind, hmarker] at h
    | some d₀ =>
      have hopen : (openBlock d₀ ((trim raw).drop d₀.opening.length)).2 = some d := by
        cases hmarker : slashes.marker? (trim raw) with
        | none => simpa [hfind, hmarker] using h
        | some m =>
          simp only [hfind, hmarker] at h
          split at h
          · exact h
          · simp at h
      obtain ⟨rfl, hclosing⟩ := snd_openBlock hopen
      exact ⟨List.mem_of_find?_eq_some hfind, by simpa using List.find?_some hfind, hclosing⟩

/-- A block comment that a line leaves open goes on, as masking reads it, behind the two units that open it. -/
theorem infix_of_stillOpen (h : stillOpen slashes none raw = some d) (hstar : startsWith (trim raw) "/**/" = false) :
    d.closing = "*/" ∧ ∃ rest, trim raw = unit '/' :: unit '*' :: rest ∧ ¬("*/" : Text) <:+: rest := by
  obtain ⟨hd, hstart, hclosing⟩ := stillOpen_none h
  obtain ⟨rest, hrest⟩ := List.isPrefixOf_iff_prefix.mp hstart
  rw [← hrest, List.drop_left] at hclosing
  obtain rfl | rfl : d = ⟨"/**", "*/"⟩ ∨ d = ⟨"/*", "*/"⟩ := by simpa [slashStarBlocks] using hd
  · refine ⟨rfl, unit '*' :: rest, hrest.symm, fun hinfix => ?_⟩
    rcases List.infix_cons_iff.mp hinfix with ⟨more, hmore⟩ | hinner
    · have hslash : rest = unit '/' :: more := (List.cons.inj hmore).2.symm
      have hfour : startsWith (trim raw) "/**/" = true :=
        hrest ▸ hslash ▸ List.isPrefixOf_iff_prefix.mpr ⟨more, rfl⟩
      simp [hstar] at hfour
    · exact hclosing hinner
  · exact ⟨rfl, rest, hrest.symm, hclosing⟩

/-- A line that leaves the comment open in which it begins leaves it open for masking. -/
theorem comment_of_stillOpen_some {d₀ : BlockDelimiter} (hclosing : d₀.closing = "*/")
    (h : stillOpen slashes (some d₀) raw = some d) : d.closing = "*/" ∧ (codeLine o .comment raw).2 = .comment := by
  obtain ⟨rfl, hinner⟩ := snd_insideBlock h
  obtain ⟨front, back, hfront, hback, hsplit⟩ := exists_blanks raw
  refine ⟨hclosing, ?_⟩
  rw [hclosing] at hinner
  rw [hsplit, codeLine_comment_blanks hfront,
    codeLine_comment_open fun hinfix => hinner (infix_append_blanks hback hinfix)]

/-- A line that leaves a comment open which it opens leaves it open for masking, wherever that stands before the
line. -/
theorem comment_of_stillOpen_none (hnot : ¬Mistaken (modeBefore o ls i) raw)
    (h : stillOpen slashes none raw = some d) :
    d.closing = "*/" ∧ (codeLine o (modeBefore o ls i) raw).2 = .comment := by
  have hstart : startsWith (trim raw) "/*" = true := by
    obtain ⟨hd, hstart, -⟩ := stillOpen_none h
    have hopening : ∀ d ∈ slashStarBlocks, ("/*" : Text) <+: d.opening := by decide
    exact List.isPrefixOf_iff_prefix.mpr ((hopening d hd).trans (List.isPrefixOf_iff_prefix.mp hstart))
  simp only [Mistaken, hstart, true_and, not_or, not_and, not_exists, Bool.not_eq_true] at hnot
  obtain ⟨hstring, hstar, hslash⟩ := hnot
  obtain ⟨hclosing, rest, hrest, hinner⟩ := infix_of_stillOpen h hstar
  obtain ⟨front, back, hfront, hback, hsplit⟩ := exists_blanks raw
  have hmode : (codeLine o .comment (rest ++ back)).2 = .comment :=
    codeLine_comment_open fun hinfix => hinner (infix_append_blanks hback hinfix)
  refine ⟨hclosing, ?_⟩
  rw [hsplit, hrest]
  rcases modeBefore_cases o ls i with hm | hm | ⟨-, hm⟩
  · rw [hm, codeLine_blanks hfront]
    exact (codeLine_opening (rest ++ back)).trans hmode
  · have hhead : (rest ++ back).head? ≠ some (unit '/') := fun hhead => by
      cases rest with
      | nil =>
        have hblank := hback _ (List.mem_of_mem_head? hhead)
        exact absurd hblank (by decide)
      | cons u rest =>
        obtain rfl : u = unit '/' := by simpa using hhead
        have hthree : startsWith (trim raw) "/*/" = true := hrest ▸ List.isPrefixOf_iff_prefix.mpr ⟨rest, rfl⟩
        simp [hslash hm] at hthree
    rw [hm, codeLine_comment_blanks hfront]
    exact (codeLine_comment_opening hhead).trans hmode
  · exact absurd hm (hstring _)

/-- A line that the classifier takes to lie in an open block comment begins in a comment for masking too. -/
theorem modeBefore_of_openBefore (hbefore : ∀ j < i, ∀ line, ls[j]? = some line → ¬Mistaken (modeBefore o ls j) line)
    (h : openBefore slashes ls i = some d) : d.closing = "*/" ∧ modeBefore o ls i = .comment := by
  induction i generalizing d with
  | zero => simp [openBefore] at h
  | succ i ih =>
    have hearlier := fun d => ih (d := d) fun j hj => hbefore j (by omega)
    cases hraw : ls[i]? with
    | none =>
      have hsame : openBefore slashes ls i = some d := by simpa [openBefore, List.take_add_one, hraw] using h
      simpa [modeBefore, List.take_add_one, hraw] using hearlier d hsame
    | some raw =>
      rw [openBefore_succ hraw] at h
      rw [modeBefore_succ hraw]
      cases hopen : openBefore slashes ls i with
      | some d₀ =>
        obtain ⟨hclosing, hmode⟩ := hearlier d₀ hopen
        obtain ⟨hclosing, hcomment⟩ := comment_of_stillOpen_some hclosing (hopen ▸ h)
        rw [hmode, hcomment]
        exact ⟨hclosing, rfl⟩
      | none =>
        obtain ⟨hclosing, hcomment⟩ := comment_of_stillOpen_none (hbefore i (by omega) raw hraw) (hopen ▸ h)
        rw [hcomment]
        exact ⟨hclosing, rfl⟩

/-- Code shows of a line only if the line has some, and only before a comment to its end. -/
theorem shows_code {u : UInt16} (hmode : modeBefore o ls i ≠ .comment)
    (hshow : (trimStart (codeLine o (modeBefore o ls i) raw).1).head? = some u)
    (hquote : o.backtickStrings = true → u ≠ unit '`') : startsWith (trim raw) "//" = false := by
  by_contra hline
  rw [Bool.not_eq_false] at hline
  obtain ⟨rest, hrest⟩ := List.isPrefixOf_iff_prefix.mp (startsWith_trimStart hline)
  obtain ⟨front, hfront, hsplit⟩ := blanks_append_trimStart raw
  rcases modeBefore_cases o ls i with hm | hm | ⟨hbacktick, hm⟩
  · have hblank : codeLine o .code (trimStart raw) = (blankOut (trimStart raw), .code) := by
      rw [← hrest]
      rfl
    rw [hm, hsplit, codeLine_blanks hfront, hblank, trimStart_blanks hfront] at hshow
    have hall : trimStart (blankOut (trimStart raw)) = [] :=
      List.dropWhile_eq_nil_iff.mpr fun v hv => by
        obtain ⟨_, -, rfl⟩ := List.mem_map.mp hv
        decide
    simp [hall] at hshow
  · exact hmode hm
  · rw [hm] at hshow
    rcases head?_codeLine_backtick (o := o) raw with hnone | hsome
    · simp [hnone] at hshow
    · exact hquote hbacktick (Option.some.inj (hshow.symm.trans hsome))

theorem trim_eq_nil (h : trim raw = []) : ∀ u ∈ raw, isBlank u = true := by
  obtain ⟨front, back, hfront, hback, hsplit⟩ := exists_blanks raw
  rw [hsplit, h]
  simpa [or_imp, forall_and] using ⟨hfront, hback⟩

/-- A line that shows something in its masked form is not blank. -/
theorem trim_ne_nil_of_shows {u : UInt16} (hshow : (trimStart (codeLine o (modeBefore o ls i) raw).1).head? = some u) :
    trim raw ≠ [] := fun h => by
  simp [trimStart_codeLine_blanks o ls i (trim_eq_nil h)] at hshow

/-- A line outside block comments is code, or a comment with a body. -/
theorem outsideBlock_cases (s : CommentSyntax) (h : trim raw ≠ []) :
    outsideBlock s raw = (.code, none, none) ∨ ∃ body still, outsideBlock s raw = (.comment, some body, still) := by
  simp only [outsideBlock, List.isEmpty_iff, h, if_false]
  split <;> [split; skip; skip; skip] <;> simp

theorem kindIn_ne_blank (s : CommentSyntax) (open? : Option BlockDelimiter) (h : trim raw ≠ []) :
    kindIn s open? raw ≠ .blank := by
  cases open? with
  | some d => simp [kindIn]
  | none => obtain hcode | ⟨body, still, hcomment⟩ := outsideBlock_cases s h <;> simp [kindIn, *]

theorem outsideBlock_code {s : CommentSyntax} (hblank : trim raw ≠ []) (hline : s.marker? (trim raw) = none)
    (hblock : s.block.find? (fun d => startsWith (trim raw) d.opening) = none) : (outsideBlock s raw).1 = .code := by
  simp [outsideBlock, List.isEmpty_iff, hblank, hline, hblock]

/-- A line that begins with no comment is code where no block comment is open. -/
theorem kindIn_slashes (hblank : trim raw ≠ []) (hline : startsWith (trim raw) "//" = false)
    (hblock : startsWith (trim raw) "/*" = false) : kindIn slashes none raw = .code := by
  have hlonger {short long : Text} (hstart : short <+: long) (h : startsWith (trim raw) short = false) :
      startsWith (trim raw) long = false :=
    Bool.eq_false_iff.mpr fun hlong => by simp [startsWith_mono hstart hlong] at h
  refine outsideBlock_code hblank ?_ ?_
  · have hmarkers : ∀ m ∈ slashes.line, ("//" : Text) <+: m := by decide
    have hnone : slashes.line.find? (fun m => startsWith (trim raw) m) = none :=
      List.find?_eq_none.mpr fun m hm => by simp [hlonger (hmarkers m hm) hline]
    rw [marker?, hnone]
    rfl
  · have hopenings : ∀ d ∈ slashes.block, ("/*" : Text) <+: d.opening := by decide
    exact List.find?_eq_none.mpr fun d hd => by simp [hlonger (hopenings d hd) hblock]

/-- Without block comments none is ever open. -/
theorem openBefore_hash (ls : List Text) (i : Nat) : openBefore hash ls i = none := by
  refine List.foldlRecOn (motive := (· = none)) (ls.take i) _ rfl fun open? hopen raw _ => ?_
  rw [hopen, stillOpen, outsideBlock]
  split
  · rfl
  · cases hash.marker? (trim raw) <;> rfl

end Agreement

namespace Mask
variable {t : Text} {u q : UInt16}

def indentedBefore (ls : List Text) (i : Nat) : IndentedMode :=
  (ls.take i).foldl (fun m line => (indentedLine m line).2) .code

theorem getElem?_indentedFrom (m : IndentedMode) (ls : List Text) (i : Nat) :
    (indentedFrom m ls)[i]? = ls[i]?.map fun line =>
      (indentedLine ((ls.take i).foldl (fun m line => (indentedLine m line).2) m) line).1 := by
  induction ls generalizing m i with
  | nil => rfl
  | cons line ls ih =>
    cases i with
    | zero => rfl
    | succ i => exact ih _ i

def IsQuoteSign (q : UInt16) : Prop := q = unit '"' ∨ q = unit '\''

def Occurs (left : Nat) : IndentedMode → Prop
  | .code => True
  | .string q | .triple q => IsQuoteSign q
  | .opening q n => IsQuoteSign q ∧ n < left

def GoesOn : IndentedMode → Prop
  | .triple q => IsQuoteSign q
  | m => m = .code

theorem GoesOn.occurs {m : IndentedMode} (h : GoesOn m) (left : Nat) : Occurs left m := by
  cases m <;> simp_all [GoesOn, Occurs]

theorem goesOn_indentedLine {m : IndentedMode} (hm : Occurs t.length m) : GoesOn (indentedLine m t).2 := by
  fun_induction indentedLine m t with
  | case2 m => cases m <;> simp_all [Occurs, GoesOn]
  | case3 q left u rest out m hline ih => cases left <;> simp_all [Occurs]
  | case14 u rest _ hquote out m hline ih =>
    rw [hline] at ih
    refine ih ?_
    by_cases htwo : (rest.take 2 == [u, u]) = true
    · have hlength : (rest.take 2).length = 2 := by rw [beq_iff_eq.mp htwo]; rfl
      rw [if_pos htwo]
      exact ⟨by simpa [IsQuoteSign] using hquote, by simp at hlength; omega⟩
    · rw [if_neg htwo]
      simpa [Occurs, IsQuoteSign] using hquote
  | _ => simp_all [Occurs, GoesOn, IsQuoteSign]

theorem goesOn_indentedBefore (ls : List Text) (i : Nat) : GoesOn (indentedBefore ls i) :=
  List.foldlRecOn (motive := GoesOn) (ls.take i) _ rfl fun _ hm raw _ => goesOn_indentedLine (hm.occurs raw.length)

/-- What code shows first is what the line begins with, and no comment. -/
theorem head?_indentedLine_code (h : (trimStart (indentedLine .code t).1).head? = some u) :
    (trimStart t).head? = some u ∧ u ≠ unit '#' := by
  induction t with
  | nil => simp [indentedLine, trimStart] at h
  | cons v t ih =>
    rw [indentedLine] at h
    split at h
    · simp [trimStart] at h
    · next hhash =>
      have hv : v ≠ unit '#' := by simpa using hhash
      split at h
      · next hquote =>
        have hblank : isBlank v = false := by
          rcases (by simpa using hquote : v = unit '"' ∨ v = unit '\'') with rfl | rfl <;> decide
        obtain rfl : v = u := by simpa [trimStart, hblank] using h
        exact ⟨by simp [trimStart, hblank], hv⟩
      · by_cases hblank : isBlank v = true
        · simpa [trimStart, hblank] using ih (by simpa [trimStart, hblank] using h)
        · obtain rfl : v = u := by simpa [trimStart, hblank] using h
          exact ⟨by simp [trimStart, hblank], hv⟩

/-- A string shows nothing before the quotes that end it. -/
theorem head?_indentedLine_triple (hq : IsQuoteSign q) (h : (trimStart (indentedLine (.triple q) t).1).head? = some u) :
    u = q := by
  have hblank : isBlank q = false := by rcases hq with rfl | rfl <;> decide
  have hspace : isBlank 0x20 = true := by decide
  induction t with
  | nil => simp [indentedLine, trimStart] at h
  | cons a t ih =>
    rcases t with _ | ⟨b, _ | ⟨c, t⟩⟩
    · simp [indentedLine, trimStart, hspace] at h
    · simp [indentedLine, trimStart, hspace] at h
    · rw [indentedLine] at h
      split at h
      · simpa [trimStart, hblank] using h.symm
      · exact ih (by simpa [trimStart, hspace] using h)

/-- A line of an indented language that shows a word first is neither blank nor a comment. -/
theorem head?_of_shows_word {ls : List Text} {i : Nat}
    (h : (trimStart (indentedLine (indentedBefore ls i) t).1).head? = some u) (hword : isWordStart u = true) :
    (trimStart t).head? = some u ∧ u ≠ unit '#' := by
  have hmode := goesOn_indentedBefore ls i
  cases hm : indentedBefore ls i with
  | code => exact head?_indentedLine_code (hm ▸ h)
  | triple q =>
    rw [hm] at h hmode
    have hquote : isWordStart q = false := by rcases hmode with rfl | rfl <;> decide
    rw [head?_indentedLine_triple hmode h, hquote] at hword
    exact absurd hword (by decide)
  | string q | opening q n => simp [hm, GoesOn] at hmode

end Mask
end AnnotationIndex
