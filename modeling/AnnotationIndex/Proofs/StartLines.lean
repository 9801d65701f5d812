import AnnotationIndex.Association
import AnnotationIndex.Proofs.CommentReads
import AnnotationIndex.Proofs.LeadingUnits
import AnnotationIndex.Proofs.LineKinds

/-!
The lines that declarations start at. A declaration starts at a line that shows its header, or at an attribute,
annotation or decorator above it. Such a line is never blank, and it is a line of code where no comment stands
before what it holds: a block right above it belongs to the declaration, and no block above passes it over.
-/
namespace AnnotationIndex
open Text

def NumberOf {α : Type} (isStart : α → Prop) (all : List α) (n : Int) : Prop :=
  ∃ (i : Nat) (l : α), all[i]? = some l ∧ isStart l ∧ n = i + 1

namespace Walked
variable {α : Type} {all above rest ls : List α} {l : α} {line : Nat}

/-- A declaration starts at its own line or at one that `p` takes for a leading line. -/
theorem numberOf (h : Walked all above (l :: rest) line) (isStart : α → Prop) {p : Text → Bool} (source : α → Text)
    (hl : isStart l) (hp : ∀ a, p (trim (source a)) = true → isStart a) :
    NumberOf isStart all ((line : Int) - CodeLine.leading p (above.map source)) := by
  have hleading : CodeLine.leading p (above.map source) = (above.takeWhile fun a => p (trim (source a))).length := by
    rw [CodeLine.leading, List.takeWhile_map, List.length_map]
    rfl
  have hsplit := List.takeWhile_append_dropWhile (p := fun a => p (trim (source a))) (l := above)
  rw [hleading]
  rcases List.eq_nil_or_concat (above.takeWhile fun a => p (trim (source a))) with hnil | ⟨nearer, a, hconcat⟩
  · refine ⟨above.length, l, ?_, hl, by simp [hnil, h.line_eq]⟩
    simp [← h.lines_eq]
  · rw [List.concat_eq_append] at hconcat
    have ha : p (trim (source a)) = true := by
      have hmem : a ∈ above.takeWhile fun a => p (trim (source a)) := by simp [hconcat]
      simpa using List.mem_takeWhile_imp hmem
    refine ⟨(above.dropWhile fun a => p (trim (source a))).length, a, ?_, hp a ha, ?_⟩
    · have habove : above.reverse = (above.dropWhile fun a => p (trim (source a))).reverse ++ a :: nearer.reverse := by
        conv_lhs => rw [← hsplit, hconcat]
        simp
      rw [← h.lines_eq, habove]
      simp
    · have hlength := congrArg List.length hsplit
      rw [hconcat] at hlength ⊢
      simp only [List.length_append, List.length_cons, List.length_nil] at hlength ⊢
      have hline := h.line_eq
      omega

theorem numberOf_self (h : Walked all above (l :: rest) line) {isStart : α → Prop} (hl : isStart l) :
    NumberOf isStart all line :=
  ⟨above.length, l, by simp [← h.lines_eq], hl, by simp [h.line_eq]⟩

end Walked

namespace Go
open Pattern

theorem leads_method : Leads isWordStart method := by
  unfold method
  repeat with_reducible apply Leads.seq
  exact leads_word rfl (by decide)

theorem leads_function : Leads isWordStart function := by
  unfold function
  repeat with_reducible apply Leads.seq
  exact leads_word rfl (by decide)

theorem leads_typeLine : Leads isWordStart typeLine := by
  unfold typeLine
  repeat with_reducible apply Leads.seq
  exact leads_word rfl (by decide)

theorem leads_value : Leads isWordStart value :=
  ((Leads.mark (.alt (leads_word rfl (by decide)) (leads_word rfl (by decide))) 1).seq _).seq _

theorem leads_member : Leads isWordStart member :=
  ((Leads.mark (.seq (leads_one _) _) 1).seq _).seq _

def IsStart (l : CodeLine) : Prop := ∃ u, (trim l.code).head? = some u ∧ isWordStart u = true

variable {all above rest ls : List CodeLine} {l : CodeLine} {line : Nat}

theorem starts_membersFrom {keyword : Text} {left : Nat} (above : List CodeLine) (h : Walked all above ls line) :
    ∀ d ∈ membersFrom keyword line left ls, NumberOf IsStart all d.lineSpan.start := by
  revert above
  fun_induction membersFrom keyword line left ls with
  | case1 | case2 => simp
  | case3 line l rest left found hfound ih => exact fun above h => ih _ h.next
  | case4 line l rest left found m hm n kind ih =>
    intro above h
    obtain ⟨-, hstart⟩ := Option.dite_none_left_eq_some.mp hm
    intro d hd
    rcases List.mem_cons.mp hd with rfl | hd
    · exact h.numberOf_self (leads_member.start hstart)
    · have hn : n ≤ rest.length := by
        have := CodeLine.blockLength_le l rest
        omega
      exact ih _ (h.skip hn) d hd

theorem starts_declared? (h : Walked all above (l :: rest) line) {ds : List Declaration}
    (hds : declared? l rest line = some ds) : ∀ d ∈ ds, NumberOf IsStart all d.lineSpan.start := by
  unfold declared? at hds
  dsimp only at hds
  split at hds
  · next m hm =>
    cases hds
    exact List.forall_mem_singleton.mpr (h.numberOf_self (leads_method.start hm))
  · split at hds
    · next m hm =>
      cases hds
      exact List.forall_mem_singleton.mpr (h.numberOf_self (leads_function.start hm))
    · split at hds
      · cases hds
        exact starts_membersFrom _ h.next
      · split at hds
        · next m hm =>
          cases hds
          exact List.forall_mem_singleton.mpr (h.numberOf_self (leads_typeLine.start hm))
        · obtain ⟨m, hm, rfl⟩ := Option.map_eq_some_iff.mp hds
          exact List.forall_mem_singleton.mpr (h.numberOf_self (leads_value.start hm))

theorem starts_declarationsFrom (above : List CodeLine) (h : Walked all above ls line) :
    ∀ d ∈ declarationsFrom line ls, NumberOf IsStart all d.lineSpan.start := by
  revert above
  fun_induction declarationsFrom line ls with
  | case1 => simp
  | case2 line l rest found hfound ih => exact fun above h => ih _ h.next
  | case3 line l rest found ds hds n ih =>
    intro above h
    obtain ⟨-, hdeclared⟩ := Option.dite_none_left_eq_some.mp hds
    intro d hd
    rcases List.mem_append.mp hd with hd | hd
    · exact starts_declared? h hdeclared d hd
    · exact ih _ (h.skip (CodeLine.blockLength_le l rest)) d hd

end Go

namespace Rust

def IsStart (l : CodeLine) : Prop := isAttribute (trim l.source) = true ∨ trim l.code ≠ []

variable {all above rest ls : List CodeLine} {l : CodeLine} {line : Nat}

theorem start_declaration (h : Walked all above (l :: rest) line) (hl : trim l.code ≠ []) (length : Nat) (name : Text)
    (kind : SymbolKind) (exported : Bool) (container : Option Text) :
    NumberOf IsStart all (declaration above l line length name kind exported container).lineSpan.start :=
  h.numberOf IsStart CodeLine.source (.inr hl) fun _ => .inl

theorem starts_membersFrom {container : Option Text} {depth : Nat} {allPublic : Bool} {left : Nat}
    (h : Walked all above ls line) :
    ∀ d ∈ membersFrom container depth allPublic above line left ls, NumberOf IsStart all d.lineSpan.start := by
  have hempty : function.start [] = none := by decide
  fun_induction membersFrom container depth allPublic above line left ls with
  | case1 | case2 => simp
  | case3 above line l rest left found hfound ih => exact ih h.next
  | case4 above line l rest left found m hm n ih =>
    have hl : trim l.code ≠ [] := fun hnil => by simp [found, hnil, hempty] at hm
    intro d hd
    rcases List.mem_cons.mp hd with rfl | hd
    · exact start_declaration h hl ..
    · exact ih (h.skip (CodeLine.blockLength_le l rest)) d hd

theorem starts_declared? (h : Walked all above (l :: rest) line) {ds : List Declaration}
    (hds : declared? above l rest line = some ds) : ∀ d ∈ ds, NumberOf IsStart all d.lineSpan.start := by
  have hl : trim l.code ≠ [] := fun hnil => by simp [declared?, hnil] at hds
  have hmembers {container : Text} {allPublic : Bool} :
      ∀ d ∈ members container allPublic above l rest line, NumberOf IsStart all d.lineSpan.start :=
    starts_membersFrom h.next
  have hself := start_declaration h hl
  simp only [declared?] at hds
  split at hds
  · cases hds
  · split at hds
    · cases hds
      exact hmembers
    · split at hds
      · cases hds
        exact List.forall_mem_singleton.mpr (hself ..)
      · split at hds
        · cases hds
          split
          · exact List.forall_mem_cons.mpr ⟨hself .., hmembers⟩
          · exact List.forall_mem_singleton.mpr (hself ..)
        · split at hds
          · cases hds
            exact List.forall_mem_singleton.mpr (hself ..)
          · obtain ⟨m, -, rfl⟩ := Option.map_eq_some_iff.mp hds
            exact List.forall_mem_singleton.mpr (hself ..)

theorem starts_declarationsFrom (h : Walked all above ls line) :
    ∀ d ∈ declarationsFrom above line ls, NumberOf IsStart all d.lineSpan.start := by
  fun_induction declarationsFrom above line ls with
  | case1 => simp
  | case2 above line l rest found hfound ih => exact ih h.next
  | case3 above line l rest found ds hds n ih =>
    obtain ⟨-, hdeclared⟩ := Option.dite_none_left_eq_some.mp hds
    intro d hd
    rcases List.mem_append.mp hd with hd | hd
    · exact starts_declared? h hdeclared d hd
    · exact ih (h.skip (CodeLine.blockLength_le l rest)) d hd

end Rust

namespace Java

def IsStart (l : CodeLine) : Prop := annotationLine.starts (trim l.source) = true ∨ trim l.code ≠ []

variable {all above rest ls : List CodeLine} {l : CodeLine} {line : Nat}

theorem start_declaration (h : Walked all above (l :: rest) line) (hl : trim l.code ≠ []) (length : Nat) (name : Text)
    (kind : SymbolKind) (exported : Bool) (container : Option Text) :
    NumberOf IsStart all (declaration above l line length name kind exported container).lineSpan.start :=
  h.numberOf IsStart CodeLine.source (.inr hl) fun _ => .inl

theorem start_member? {container : Text} {inInterface : Bool} (h : Walked all above (l :: rest) line) {d : Declaration}
    (hd : member? container inInterface above l rest line = some d) : NumberOf IsStart all d.lineSpan.start := by
  have hl : trim l.code ≠ [] := fun hnil => by
    have hempty : dropAnnotations [] = [] := by decide
    simp [member?, hnil, hempty] at hd
  have hself := start_declaration h hl
  simp only [member?] at hd
  repeat' split at hd
  all_goals cases hd
  all_goals exact hself ..

theorem starts_membersFrom {container : Text} {inInterface : Bool} {depth left : Nat} (h : Walked all above ls line) :
    ∀ d ∈ membersFrom container inInterface depth above line left ls, NumberOf IsStart all d.lineSpan.start := by
  fun_induction membersFrom container inInterface depth above line left ls with
  | case1 | case2 => simp
  | case3 above line l rest left found hfound ih => exact ih h.next
  | case4 above line l rest left found d hd n ih =>
    obtain ⟨-, hmember⟩ := Option.dite_none_left_eq_some.mp hd
    exact List.forall_mem_cons.mpr ⟨start_member? h hmember, ih (h.skip (CodeLine.blockLength_le l rest))⟩

theorem starts_declarationsFrom (h : Walked all above ls line) :
    ∀ d ∈ declarationsFrom above line ls, NumberOf IsStart all d.lineSpan.start := by
  have hempty : typeLine.start (dropAnnotations []) = none := by decide
  fun_induction declarationsFrom above line ls with
  | case1 => simp
  | case2 above line l rest hfound ih => exact ih h.next
  | case3 above line l rest m hm n kind d members ih =>
    have hl : trim l.code ≠ [] := fun hnil => by simp [hnil, hempty] at hm
    refine List.forall_mem_cons.mpr ⟨start_declaration h hl .., List.forall_mem_append.mpr ⟨?_, ?_⟩⟩
    · exact starts_membersFrom h.next
    · exact ih (h.skip (CodeLine.blockLength_le l rest))

end Java

namespace Python
open Pattern

def IsStart (l : Line) : Prop :=
  isDecorator (trim l.source) = true ∨ ∃ u, (trim l.code).head? = some u ∧ isWordStart u = true

theorem not_isBlank_of_isWordStart {u : UInt16} (h : isWordStart u = true) : isBlank u = false := by
  refine not_isBlank_of_isWord ?_
  rw [isWordStart, Bool.or_eq_true] at h
  rcases h with h | h <;> simp [isWord, h]

theorem shows_of_defHeader {t : Text} {m : Match} (h : defHeader.start t = some m) :
    ∃ u, (trim t).head? = some u ∧ isWordStart u = true := by
  have hdef : Leads isWordStart ("def" ++ (blanks1 ++ (mark 1 word ++ (blanks ++ "(")))) :=
    (leads_word rfl (by decide)).seq _
  have hasync : Leads isWordStart ("async" ++ blanks1) := (leads_word rfl (by decide)).seq _
  exact (Leads.opt_seq hasync hdef).blanks_start (fun _ => not_isBlank_of_isWordStart) h

theorem shows_of_classHeader {t : Text} {m : Match} (h : classHeader.start t = some m) :
    ∃ u, (trim t).head? = some u ∧ isWordStart u = true := by
  have hclass : Leads isWordStart ("class" ++ (blanks1 ++ mark 1 word)) := (leads_word rfl (by decide)).seq _
  exact hclass.blanks_start (fun _ => not_isBlank_of_isWordStart) h

theorem shows_of_assignment {t : Text} {m : Match} (h : assignment.start t = some m) :
    ∃ u, (trim t).head? = some u ∧ isWordStart u = true := by
  have hname : Leads isWordStart assignment := by
    unfold assignment
    repeat with_reducible apply Leads.seq
    exact (Leads.seq (leads_one _) _).mark 1
  obtain ⟨u, hu, hword⟩ := hname.start h
  cases t with
  | nil => cases hu
  | cons v t =>
    obtain rfl : v = u := by simpa using hu
    exact ⟨v, by simp [head?_trim, trimStart, not_isBlank_of_isWordStart hword], hword⟩

variable {all above rest ls : List Line} {l : Line} {line : Nat}

theorem length_step_le (above : List Line) (l : Line) (rest : List Line) (line : Nat) (scopes : List Scope) :
    (step above (l :: rest) line scopes).length ≤ rest.length := by
  have hheader := headerLength_le l rest
  simp only [step]
  repeat' split
  all_goals simp only [hheader, Nat.zero_le]

/-- What is declared has a header that shows a word, and starts there or at the decorators above it. -/
theorem listed_step (above : List Line) (l : Line) (rest : List Line) (line : Nat) (scopes : List Scope) :
    ∀ d ∈ (step above (l :: rest) line scopes).declaration, (∃ u, (trim l.code).head? = some u ∧ isWordStart u = true) ∧
      (d.lineSpan.start = line ∨
        d.lineSpan.start = (line : Int) - CodeLine.leading isDecorator (above.map (·.source))) := by
  intro d hd
  simp only [step] at hd
  split at hd
  · next m hm =>
    refine ⟨shows_of_defHeader hm, .inr ?_⟩
    dsimp only at hd
    repeat' split at hd
    all_goals first | cases hd; rfl | cases hd
  · split at hd
    · next m hm =>
      refine ⟨shows_of_classHeader hm, .inr ?_⟩
      dsimp only at hd
      split at hd
      · cases hd
        rfl
      · cases hd
    · split at hd
      · cases hd
      · split at hd
        · cases hd
        · next m hm =>
          refine ⟨shows_of_assignment hm, .inl ?_⟩
          split at hd
          · cases hd
          · cases hd
            rfl

theorem start_step (h : Walked all above (l :: rest) line) (scopes : List Scope) :
    ∀ d ∈ (step above (l :: rest) line scopes).declaration, NumberOf IsStart all d.lineSpan.start := by
  intro d hd
  obtain ⟨hl, hstart | hstart⟩ := listed_step above l rest line scopes d hd
  · rw [hstart]
    exact h.numberOf_self (.inr hl)
  · rw [hstart]
    exact h.numberOf IsStart Line.source (.inr hl) fun _ => .inl

theorem starts_declarationsFrom {scopes : List Scope} (h : Walked all above ls line) :
    ∀ d ∈ declarationsFrom above line scopes ls, NumberOf IsStart all d.lineSpan.start := by
  fun_induction declarationsFrom above line scopes ls with
  | case1 => simp
  | case2 above line scopes l rest _ ih => exact ih h.next
  | case3 above line scopes l rest _ scopes' s ih =>
    refine List.forall_mem_append.mpr ⟨fun d hd => ?_, ih (h.skip (length_step_le above l rest line scopes'))⟩
    exact start_step h scopes' d (Option.mem_toList.mp hd)

end Python

theorem NumberOf.mono {α : Type} {isStart isStart' : α → Prop} {all : List α} {n : Int} (h : NumberOf isStart all n)
    (hmono : ∀ l, isStart l → isStart' l) : NumberOf isStart' all n := by
  obtain ⟨i, l, hi, hl, hn⟩ := h
  exact ⟨i, l, hi, hmono l hl, hn⟩

namespace CodeLine

theorem getElem?_indexFrom {d : Depth} {es : List (Text × Text)} {i : Nat} {l : CodeLine}
    (h : (indexFrom d es)[i]? = some l) : es[i]? = some (l.source, l.code) := by
  induction es generalizing d i with
  | nil => simp [indexFrom] at h
  | cons e es ih =>
    cases i with
    | zero =>
      obtain rfl : _ = l := by simpa [indexFrom] using h
      rfl
    | succ i => exact ih h

/-- A line of a text with its masked form. -/
theorem getElem?_ofText {o : Mask.Options} {text : Text} {i : Nat} {l : CodeLine} (h : (ofText o text)[i]? = some l) :
    (lines text)[i]? = some l.source ∧ l.code = (Mask.codeLine o (Mask.modeBefore o (lines text) i) l.source).1 := by
  obtain ⟨hsource, hcode⟩ := List.getElem?_zip_eq_some.mp (getElem?_indexFrom h)
  refine ⟨hsource, ?_⟩
  rw [Mask.code, Mask.getElem?_codeFrom, hsource] at hcode
  exact (Option.some.inj hcode).symm

/-- A line of a language with braces that a declaration may start at: it begins as an attribute or an annotation
does, or shows something that no string hides. -/
def Opens (o : Mask.Options) (l : CodeLine) : Prop :=
  (∃ u, (trim l.source).head? = some u ∧ (u = unit '#' ∨ u = unit '@')) ∨
    ∃ u, (trim l.code).head? = some u ∧ (o.backtickStrings = true → u ≠ unit '`')

/-- Where no string stands between backticks, a declaration may start at a leading line and at whatever is shown. -/
theorem opens_of_leads {o : Mask.Options} (ho : o.backtickStrings = false) {a : Pattern} {sign : UInt16}
    (ha : a.Leads (· == sign)) (hsign : sign = unit '#' ∨ sign = unit '@') {l : CodeLine}
    (hl : a.starts (trim l.source) = true ∨ trim l.code ≠ []) : Opens o l := by
  rcases hl with hstarts | hshows
  · obtain ⟨m, hm⟩ := Option.isSome_iff_exists.mp hstarts
    obtain ⟨u, hu, he⟩ := ha.start hm
    exact .inl ⟨u, hu, beq_iff_eq.mp he ▸ hsign⟩
  · obtain ⟨u, hu⟩ := Option.isSome_iff_exists.mp (List.isSome_head?.mpr hshows)
    exact .inr ⟨u, hu, fun h => absurd (ho.symm.trans h) Bool.false_ne_true⟩

end CodeLine

section Classified
open CommentSyntax CommentLine Mask
variable {o : Options} {text : Text} {n : Int}

/-- No comment stands before what the line of that index holds: it begins neither in a block comment nor with one,
and on no line above it do the two readings of `/*` differ. -/
structure CodeFirst (o : Options) (ls : List Text) (i : Nat) : Prop where
  mode : modeBefore o ls i ≠ .comment
  opening : ∀ raw, ls[i]? = some raw → startsWith (trim raw) "/*" = false
  above : ∀ j < i, ∀ raw, ls[j]? = some raw → ¬Mistaken (modeBefore o ls j) raw

/-- Where no comment stands before what a line holds, the classifier has no block comment open. -/
theorem CodeFirst.closed {ls : List Text} {i : Nat} (h : CodeFirst o ls i) : openBefore slashes ls i = none := by
  cases hopen : openBefore slashes ls i with
  | none => rfl
  | some d => exact absurd (modeBefore_of_openBefore h.above hopen).2 h.mode

theorem kinds_of_opens (h : NumberOf (CodeLine.Opens o) (CodeLine.ofText o text) n) :
    ∃ i : Nat, n = i + 1 ∧ (∃ kind ≠ .blank, (kinds slashes text)[i]? = some kind) ∧
      (CodeFirst o (lines text) i → (kinds slashes text)[i]? = some .code) := by
  obtain ⟨i, l, hi, hl, hn⟩ := h
  obtain ⟨hsource, hcode⟩ := CodeLine.getElem?_ofText hi
  have hkind : (kinds slashes text)[i]? = some (kindIn slashes (openBefore slashes (lines text) i) l.source) := by
    rw [getElem?_kinds, hsource]
    rfl
  have hshown : trim l.source ≠ [] := by
    rcases hl with ⟨u, hu, -⟩ | ⟨u, hu, -⟩
    · intro hnil
      simp [hnil] at hu
    · rw [head?_trim, hcode] at hu
      exact trim_ne_nil_of_shows hu
  refine ⟨i, hn, ⟨_, kindIn_ne_blank slashes _ hshown, hkind⟩, fun hfirst => ?_⟩
  have hline : startsWith (trim l.source) "//" = false := by
    rcases hl with ⟨u, hu, hsign⟩ | ⟨u, hu, hquote⟩
    · by_contra hstarts
      obtain ⟨rest, hrest⟩ := List.isPrefixOf_iff_prefix.mp (Bool.not_eq_false _ ▸ hstarts)
      rw [← hrest] at hu
      have hslash : unit '/' = u := Option.some.inj hu
      rcases hsign with rfl | rfl <;> exact absurd hslash (by decide)
    · rw [head?_trim, hcode] at hu
      exact shows_code hfirst.mode hu hquote
  rw [hkind, hfirst.closed, kindIn_slashes hshown hline (hfirst.opening _ hsource)]

end Classified

namespace Go

theorem opens_declarations {text : Text} : ∀ d ∈ (outline text).declarations,
    NumberOf (CodeLine.Opens ⟨true, true, false⟩) (CodeLine.ofText ⟨true, true, false⟩ text) d.lineSpan.start := by
  intro d hd
  refine (starts_declarationsFrom [] (.first _) d hd).mono fun l ⟨u, hu, hword⟩ => .inr ⟨u, hu, fun _ => ?_⟩
  rintro rfl
  exact absurd hword (by decide)

end Go

namespace Rust

theorem opens_declarations {text : Text} : ∀ d ∈ (outline text).declarations,
    NumberOf (CodeLine.Opens ⟨false, true, false⟩) (CodeLine.ofText ⟨false, true, false⟩ text) d.lineSpan.start := by
  intro d hd
  have hsign : Pattern.Leads (· == unit '#') attributeLine := ((Pattern.leads_lit (unit '#') []).seq _).seq _
  exact (starts_declarationsFrom (.first _) d hd).mono fun l hl => CodeLine.opens_of_leads rfl hsign (.inl rfl) hl

end Rust

namespace Java

theorem opens_declarations {text : Text} : ∀ d ∈ (outline text).declarations,
    NumberOf (CodeLine.Opens ⟨false, true, false⟩) (CodeLine.ofText ⟨false, true, false⟩ text) d.lineSpan.start := by
  intro d hd
  have hsign : Pattern.Leads (· == unit '@') annotationLine :=
    ((((Pattern.leads_lit (unit '@') []).seq _).seq _).seq _).seq _
  exact (starts_declarationsFrom (.first _) d hd).mono fun l hl => CodeLine.opens_of_leads rfl hsign (.inr rfl) hl

end Java

namespace Python
open CommentSyntax CommentLine Mask

theorem getElem?_linesOf {text : Text} {i : Nat} {l : Line} (h : (linesOf text)[i]? = some l) :
    (lines text)[i]? = some l.source ∧ l.code = (indentedLine (indentedBefore (lines text) i) l.source).1 := by
  rw [linesOf, List.getElem?_map] at h
  obtain ⟨e, he, rfl⟩ := Option.map_eq_some_iff.mp h
  obtain ⟨hsource, hcode⟩ := List.getElem?_zip_eq_some.mp he
  refine ⟨hsource, ?_⟩
  rw [indented, getElem?_indentedFrom, hsource] at hcode
  exact (Option.some.inj hcode).symm

/-- A line that begins with anything but the sign of a comment is code. -/
theorem kindIn_hash {raw : Text} {u : UInt16} (hu : (trim raw).head? = some u) (hsign : u ≠ unit '#') :
    kindIn hash none raw = .code := by
  cases ht : trim raw with
  | nil => simp [ht] at hu
  | cons v rest =>
    obtain rfl : v = u := by simpa [ht] using hu
    refine outsideBlock_code (by simp [ht]) ?_ rfl
    have hhash : ofString "#" = [unit '#'] := by decide
    simp [marker?, CommentSyntax.hash, ht, startsWith, hhash, hsign.symm]

theorem code_declarations {path text : Text} : ∀ d ∈ (outline path text).declarations,
    ∃ i : Nat, d.lineSpan.start = i + 1 ∧ (kinds hash text)[i]? = some .code := by
  intro d hd
  rw [outline_eq] at hd
  obtain ⟨d', hd', rfl⟩ := List.mem_map.mp hd
  have hspan : ∀ listed, (withExports listed d').lineSpan = d'.lineSpan := fun listed => by
    unfold withExports
    split <;> rfl
  obtain ⟨i, l, hi, hl, hn⟩ := starts_declarationsFrom (.first _) d' hd'
  obtain ⟨hsource, hcode⟩ := getElem?_linesOf hi
  have hhead : ∃ u, (trim l.source).head? = some u ∧ u ≠ unit '#' := by
    rcases hl with hdecorator | ⟨u, hu, hword⟩
    · rw [isDecorator_eq, beq_iff_eq] at hdecorator
      exact ⟨unit '@', by rw [head?_trim, hdecorator], by decide⟩
    · rw [head?_trim, hcode] at hu
      exact ⟨u, by rw [head?_trim]; exact head?_of_shows_word hu hword⟩
  obtain ⟨u, hu, hsign⟩ := hhead
  refine ⟨i, by rw [hspan, hn], ?_⟩
  rw [getElem?_kinds, hsource, openBefore_hash, Option.map_some, kindIn_hash hu hsign]

end Python

section Association
open BlockTarget
variable {ds : List Declaration} {ks : List LineKind} {d : Declaration} {i : Nat}

/-- The first line of code below a line is no later than any line of code below it. -/
theorem nextCode_le (hi : ks[i]? = some .code) (line : Int) (blank : Bool) :
    ∃ next between, nextCode line blank ks = some (next, between) ∧ line ≤ next ∧ next ≤ line + i := by
  induction ks generalizing i line blank with
  | nil => simp at hi
  | cons kind ks ih =>
    cases i with
    | zero =>
      obtain rfl : kind = .code := by simpa using hi
      exact ⟨line, blank, rfl, by simp, by simp⟩
    | succ i =>
      have hrest (blank : Bool) := ih (i := i) (by simpa using hi) (line + 1) blank
      cases kind with
      | code => exact ⟨line, blank, rfl, by simp, by omega⟩
      | blank =>
        obtain ⟨next, between, hnext, hge, hle⟩ := hrest true
        exact ⟨next, between, hnext, by omega, by omega⟩
      | comment =>
        obtain ⟨next, between, hnext, hge, hle⟩ := hrest blank
        exact ⟨next, between, hnext, by omega, by omega⟩

/-- The declaration that a block belongs to starts at the next line of code. -/
theorem start_of_symbol {span : LineSpan} {next : Int} {between : Bool} {j : Nat} {distance : Int}
    (hnext : nextCode (span.stop + 1) false (ks.drop span.stop.toNat) = some (next, between))
    (h : ofBlock ds ks span = .symbol j distance) : ∃ e, ds[j]? = some e ∧ e.lineSpan.start = next := by
  unfold ofBlock at h
  extract_lets inside at h
  have hinside : inside ≠ .symbol j distance := by
    cases hdeclaration : enclosing? ds span.start <;> simp [inside, hdeclaration]
  rw [hnext] at h
  dsimp only at h
  split at h
  · exact absurd h hinside
  · next k hk =>
    split at h
    · exact absurd h hinside
    · obtain ⟨hj, he, -⟩ := List.findIdx?_eq_some_iff_getElem.mp hk
      cases h
      exact ⟨ds[j], List.getElem?_eq_getElem hj, by simpa using he⟩

/-- A declaration starts where a block above looks for one: a block right above belongs to a declaration that starts
there, and a block further above to none that starts further below. -/
structure Reached (ds : List Declaration) (ks : List LineKind) (d : Declaration) : Prop where
  code : ks[(d.lineSpan.start - 1).toNat]? = some .code
  adjacent : ∀ span : LineSpan, span.stop + 1 = d.lineSpan.start →
    ∃ j e, ofBlock ds ks span = .symbol j 1 ∧ ds[j]? = some e ∧ e.lineSpan.start = d.lineSpan.start
  passed : ∀ span : LineSpan, 0 ≤ span.stop → span.stop < d.lineSpan.start → ∀ j distance,
    ofBlock ds ks span = .symbol j distance → ∃ e, ds[j]? = some e ∧ e.lineSpan.start ≤ d.lineSpan.start

theorem reached_of_code (hd : d ∈ ds) (hstart : d.lineSpan.start = i + 1) (hi : ks[i]? = some .code) :
    Reached ds ks d where
  code := by simpa [hstart] using hi
  adjacent := fun span hspan => by
    have hstop : span.stop = i := by omega
    obtain ⟨rest, hrest⟩ : ∃ rest, ks.drop i = .code :: rest :=
      ⟨_, List.drop_eq_getElem?_toList_append.trans (by rw [hi]; rfl)⟩
    cases hfind : ds.findIdx? fun d => d.lineSpan.start == (i : Int) + 1 with
    | none => simpa [hstart] using List.findIdx?_eq_none_iff.mp hfind d hd
    | some j =>
      obtain ⟨hj, he, -⟩ := List.findIdx?_eq_some_iff_getElem.mp hfind
      have hbelow : (i : Int) + 1 - i = 1 := by omega
      refine ⟨j, ds[j], ?_, List.getElem?_eq_getElem hj, by simpa [hstart] using he⟩
      simp [ofBlock, hstop, hrest, nextCode, hfind, hbelow]
  passed := fun span hnonneg hbefore j distance hsymbol => by
    have hdrop : (ks.drop span.stop.toNat)[i - span.stop.toNat]? = some .code := by
      rw [List.getElem?_drop, Nat.add_sub_cancel' (by omega)]
      exact hi
    obtain ⟨next, between, hnext, -, hle⟩ := nextCode_le hdrop (span.stop + 1) false
    obtain ⟨e, he, hstartsAt⟩ := start_of_symbol hnext hsymbol
    exact ⟨e, he, by omega⟩

end Association

namespace Extractor
open CommentLine

def braced : List (Extractor × Mask.Options) :=
  [(go, ⟨true, true, false⟩), (rust, ⟨false, true, false⟩), (java, ⟨false, true, false⟩)]

theorem opens_braced {e : Extractor} {masked : Mask.Options} (he : (e, masked) ∈ braced) {path text : Text}
    {o : Outline} (ho : e.outline path text = .ok o) : e.comments = .slashes ∧
      ∀ d ∈ o.declarations, NumberOf (CodeLine.Opens masked) (CodeLine.ofText masked text) d.lineSpan.start := by
  simp only [braced, List.mem_cons, List.not_mem_nil, or_false, Prod.mk.injEq] at he
  rcases he with ⟨rfl, rfl⟩ | ⟨rfl, rfl⟩ | ⟨rfl, rfl⟩ <;> cases ho
  · exact ⟨rfl, Go.opens_declarations⟩
  · exact ⟨rfl, Rust.opens_declarations⟩
  · exact ⟨rfl, Java.opens_declarations⟩

/-- Every declaration of an indented file starts at a line of code, and is reached from above. Every declaration of
a file with braces starts at a line that is not blank, and is reached from above where no comment stands before what
that line holds. -/
theorem declarations_reached :
    (∀ path text o, python.outline path text = .ok o → ∀ d ∈ o.declarations,
      Reached o.declarations (kinds python.comments text) d) ∧
    ∀ e masked, (e, masked) ∈ braced → ∀ path text o, e.outline path text = .ok o → ∀ d ∈ o.declarations,
      ∃ i : Nat, d.lineSpan.start = i + 1 ∧ (∃ kind ≠ .blank, (kinds e.comments text)[i]? = some kind) ∧
        (CodeFirst masked (lines text) i → Reached o.declarations (kinds e.comments text) d) := by
  constructor
  · intro path text o ho d hd
    cases ho
    obtain ⟨i, hstart, hi⟩ := Python.code_declarations d hd
    exact reached_of_code hd hstart hi
  · intro e masked he path text o ho d hd
    obtain ⟨hcomments, hopens⟩ := opens_braced he ho
    obtain ⟨i, hstart, hkind, hcode⟩ := kinds_of_opens (hopens d hd)
    rw [hcomments]
    exact ⟨i, hstart, hkind, fun hfirst => reached_of_code hd hstart (hcode hfirst)⟩

def noted : Text := "// above\nfn f() {}\n"

theorem codeFirst_noted : CodeFirst ⟨false, true, false⟩ (lines noted) 1 where
  mode := by decide +kernel
  opening := by
    have hopening : ∀ raw ∈ (lines noted)[1]?, startsWith (trim raw) "/*" = false := by decide
    exact hopening
  above := fun j hj raw hraw hmistaken => by
    have habove : ∀ raw ∈ (lines noted)[0]?, startsWith (trim raw) "/*" = false := by decide
    obtain rfl : j = 0 := by omega
    simpa [habove raw hraw] using hmistaken.1

theorem declarations_reached_noted :
    ∃ d ∈ (Rust.outline noted).declarations, d.name = "f" ∧
      Reached (Rust.outline noted).declarations (kinds rust.comments noted) d := by
  have hds : (Rust.outline noted).declarations.map (fun d => (d.name, d.lineSpan.start)) = [(ofString "f", 2)] := by
    decide +kernel
  obtain ⟨d, hd, hspan⟩ : ∃ d ∈ (Rust.outline noted).declarations, (d.name, d.lineSpan.start) = (ofString "f", 2) :=
    List.mem_map.mp (hds ▸ List.mem_singleton_self _)
  obtain ⟨hname, hstart⟩ := Prod.mk.inj hspan
  obtain ⟨i, hi, -, hreached⟩ := declarations_reached.2 rust ⟨false, true, false⟩ (by simp [braced]) [] noted _ rfl d hd
  obtain rfl : i = 1 := by omega
  exact ⟨d, hd, hname, hreached codeFirst_noted⟩

def commented : Text := "// above\n/* c */ fn f() {}\nfn g() {}\n"

/-- A function behind a comment starts at a comment line, and the block above it belongs to the next function. -/
theorem commented_skipped :
    (Rust.outline commented).declarations.map (fun d => (d.name, d.lineSpan.start)) =
        [(ofString "f", 2), (ofString "g", 3)] ∧
      kinds rust.comments commented = [.comment, .comment, .code] ∧
      BlockTarget.ofBlock (Rust.outline commented).declarations (kinds rust.comments commented) ⟨1, 1⟩ =
        .symbol 1 2 := by
  decide +kernel

end Extractor
end AnnotationIndex
