import AnnotationIndex.Proofs.LineOrder
import AnnotationIndex.Proofs.Passages
import Mathlib.Data.List.Nodup
import Mathlib.Data.List.Pairwise
import Mathlib.Data.List.Perm.Basic

/-!
What becomes of the directive lines of a text. In permissive mode each is a source line, the start of one annotation
or the line of one fault. Annotations take up lines of their block, and no two share a line.
-/
namespace AnnotationIndex
open Text

namespace BlockLine
variable {c : CommentLine} {l : BlockLine}

def isSourceBody (body : Text) : Bool := (DirectiveLine.parse? body).any fun d => AnnotationRecord.isSource d.nameSpace

theorem directive?_eq_some : directive? c = some l ↔
    ∃ body, c.body = some body ∧ startsDirective body = true ∧ l = ofBody c.line body := by
  unfold directive?
  cases c.body with
  | none => simp
  | some body =>
    dsimp only
    cases hbody : startsDirective body with
    | false => simp [hbody]
    | true =>
      rw [if_pos rfl, Option.some.injEq]
      constructor
      · exact fun h => ⟨body, rfl, hbody, h.symm⟩
      · rintro ⟨body', hbody', _, rfl⟩
        rw [Option.some.inj hbody']

theorem isDirective_of_directive? (h : directive? c = some l) : l.isDirective = true := by
  obtain ⟨body, _, hbody, rfl⟩ := directive?_eq_some.mp h
  exact hbody

/-- A line of a block is a directive where it would start a block. -/
theorem directive?_of_continues? {indent : Nat} (h : continues? indent c = some l) :
    directive? c = if l.isDirective then some l else none := by
  unfold continues? at h
  unfold directive?
  split at h
  · next body hbody =>
    split at h
    · obtain rfl := Option.some.inj h
      rfl
    · exact absurd h (by simp)
  · exact absurd h (by simp)

theorem directive?_of_not_continues? {indent : Nat} (h : continues? indent c = none) : directive? c = none := by
  unfold continues? at h
  unfold directive?
  split at h
  · next body hbody =>
    split at h
    · exact absurd h (by simp)
    · next hnot =>
      rw [Bool.or_eq_true, not_or] at hnot
      rw [if_neg hnot.1]
  · rfl

end BlockLine

namespace AnnotationBlock

def directives (b : AnnotationBlock) : List BlockLine := b.lines.filter (·.isDirective)

/-- Every directive line of a text is in one of its blocks. -/
theorem directives_scanFrom (open? : Option (BlockLine × List BlockLine)) (cs : List CommentLine) :
    (scanFrom open? cs).flatMap directives =
      (closed open?).flatMap directives ++ cs.filterMap BlockLine.directive? := by
  induction cs generalizing open? with
  | nil => cases open? <;> simp [scanFrom]
  | cons c rest ih =>
    cases open? with
    | none =>
      rw [scanFrom, ih]
      cases hd : BlockLine.directive? c with
      | none => simp [closed, hd]
      | some l => simp [closed, hd, directives, lines, BlockLine.isDirective_of_directive? hd]
    | some p =>
      obtain ⟨first, others⟩ := p
      rw [scanFrom]
      split
      · next l hl =>
        rw [ih, List.filterMap_cons, BlockLine.directive?_of_continues? hl]
        have hlines : (closed (some (first, l :: others))).flatMap directives =
            (closed (some (first, others))).flatMap directives ++ [l].filter (·.isDirective) := by
          simp [closed, directives, lines, ← List.filter_append]
        rw [hlines]
        cases hd : l.isDirective <;> simp [hd]
      · next hnone =>
        rw [List.flatMap_cons, ih, List.filterMap_cons, BlockLine.directive?_of_not_continues? hnone]
        simp [closed]

theorem directives_scan (s : CommentSyntax) (t : Text) :
    (scan s t).flatMap directives = (CommentLine.classify s t).filterMap BlockLine.directive? :=
  directives_scanFrom none _

def Ordered (bs : List AnnotationBlock) : Prop := (bs.flatMap lineNumbers).Pairwise (· < ·)

theorem ordered_scan (s : CommentSyntax) (t : Text) : Ordered (scan s t) :=
  List.Pairwise.sublist (lineNumbers_scan s t) List.pairwise_lt_range'

variable {b : AnnotationBlock} {n : Nat}

/-- The lines of a block stand between its first and its last. -/
theorem bounds_of_mem_lineNumbers (h : b.lineNumbers.Pairwise (· < ·)) (hn : n ∈ b.lineNumbers) :
    b.first.line ≤ n ∧ n ≤ b.last.line := by
  have hle : b.lineNumbers.Pairwise (· ≤ ·) := h.imp Nat.le_of_lt
  constructor
  · rw [lineNumbers, lines, List.map_cons] at hle hn
    cases List.mem_cons.mp hn with
    | inl he => exact he.ge
    | inr hrest => exact (List.pairwise_cons.mp hle).1 n hrest
  · have hlast : b.lineNumbers.getLast (List.ne_nil_of_mem hn) = b.last.line := by
      simp only [lineNumbers, lines, last, List.getLast_map, List.getLast_eq_getLastD]
    exact hlast ▸ hle.rel_getLast hn

end AnnotationBlock

namespace AnnotatedBlock

def header? (l : BlockLine) : Option (Nat × Text) := (DirectiveLine.parse? l.body).map fun d => (l.line, d.nameSpace)

def Entry.header (e : Entry) : Nat × Text := (e.line, e.directive.nameSpace)

theorem headers_entriesFrom (last : Option Entry) (ls : List BlockLine) : (entriesFrom last ls).1.map Entry.header =
    last.toList.map Entry.header ++ (ls.filter (·.isDirective)).filterMap header? := by
  induction ls generalizing last with
  | nil => simp [entriesFrom]
  | cons l rest ih =>
    rw [entriesFrom]
    cases hd : l.isDirective with
    | false =>
      have hextend : (last.map (·.extend l)).toList.map Entry.header = last.toList.map Entry.header := by
        cases last <;> rfl
      simp [hd, ih, hextend]
    | true =>
      cases hparse : DirectiveLine.parse? l.body with
      | none => simp [hd, header?, hparse, ih]
      | some d => simp [hd, header?, hparse, ih, Entry.header]

theorem malformed_entriesFrom (last : Option Entry) (ls : List BlockLine) : (entriesFrom last ls).2 =
    (ls.filter (·.isDirective)).filter fun l => (header? l).isNone := by
  induction ls generalizing last with
  | nil => rfl
  | cons l rest ih =>
    rw [entriesFrom]
    cases hd : l.isDirective with
    | false => simp [hd, ih]
    | true =>
      cases hparse : DirectiveLine.parse? l.body with
      | none => simp [hd, header?, hparse, ih]
      | some d => simp [hd, header?, hparse, ih]

structure Follow (lines : List Nat) (es : List Entry) : Prop where
  apart : es.Pairwise fun e e' => e.lastLine < e'.line
  start : ∀ e ∈ es, e.line ∈ lines
  le : ∀ e ∈ es, e.line ≤ e.lastLine
  stop : ∀ e ∈ es, e.lastLine ∈ lines

theorem follow_nil (lines : List Nat) : Follow lines [] := ⟨.nil, nofun, nofun, nofun⟩

theorem Follow.mono {lines lines' : List Nat} {es : List Entry} (h : Follow lines es) (hlines : lines ⊆ lines') :
    Follow lines' es := ⟨h.apart, fun e he => hlines (h.start e he), h.le, fun e he => hlines (h.stop e he)⟩

theorem Follow.append {lines lines' : List Nat} {es es' : List Entry} (h : Follow lines es) (h' : Follow lines' es')
    (hlines : ∀ n ∈ lines, ∀ n' ∈ lines', n < n') : Follow (lines ++ lines') (es ++ es') := by
  constructor
  case apart =>
    exact List.pairwise_append.mpr ⟨h.apart, h'.apart, fun e he e' he' => hlines _ (h.stop e he) _ (h'.start e' he')⟩
  case start =>
    exact fun e he => (List.mem_append.mp he).elim (fun he => List.mem_append_left _ (h.start e he))
      fun he => List.mem_append_right _ (h'.start e he)
  case le =>
    exact fun e he => (List.mem_append.mp he).elim (h.le e) (h'.le e)
  case stop =>
    exact fun e he => (List.mem_append.mp he).elim (fun he => List.mem_append_left _ (h.stop e he))
      fun he => List.mem_append_right _ (h'.stop e he)

theorem follow_toList {last : Option Entry} (h : ∀ e ∈ last, e.line ≤ e.lastLine) :
    Follow (last.toList.flatMap fun e => [e.line, e.lastLine]) last.toList := by
  cases last with
  | none => exact follow_nil _
  | some e => constructor <;> simp [h e rfl]

/-- Each entry takes the lines up to the next directive. -/
theorem follow_entriesFrom (last : Option Entry) {ls : List BlockLine} (hls : (ls.map (·.line)).Pairwise (· < ·))
    (hlast : ∀ e ∈ last, e.line ≤ e.lastLine ∧ ∀ l ∈ ls, e.lastLine < l.line) :
    Follow (last.toList.flatMap (fun e => [e.line, e.lastLine]) ++ ls.map (·.line)) (entriesFrom last ls).1 := by
  induction ls generalizing last with
  | nil =>
    rw [List.map_nil, List.append_nil]
    exact follow_toList fun e he => (hlast e he).1
  | cons l rest ih =>
    obtain ⟨hl, hrest⟩ := List.pairwise_cons.mp hls
    have hold := follow_toList fun e he => (hlast e he).1
    have hbehind :
        ∀ n ∈ last.toList.flatMap fun e => [e.line, e.lastLine], ∀ n' ∈ (l :: rest).map (·.line), n < n' := by
      intro n hn n' hn'
      obtain ⟨e, he, hn⟩ := List.mem_flatMap.mp hn
      obtain ⟨l', hl', rfl⟩ := List.mem_map.mp hn'
      obtain ⟨hle, hlt⟩ := hlast e (Option.mem_toList.mp he)
      have hn : n = e.line ∨ n = e.lastLine := by simpa using hn
      have hlt := hlt l' hl'
      omega
    rw [entriesFrom]
    -- A directive ends the open entry and perhaps opens one; any other line adds itself to the open entry.
    split
    · split
      · next d _ =>
        refine hold.append ((ih (some ⟨d, l.line, l.line⟩) hrest ?_).mono (by simp)) hbehind
        rintro e he
        obtain rfl := Option.some.inj he
        exact ⟨Nat.le_refl _, fun l' hl' => hl _ (List.mem_map_of_mem hl')⟩
      · exact hold.append ((ih none hrest fun _ he => absurd he (by simp)).mono (List.subset_cons_self _ _)) hbehind
    · refine (ih (last.map (·.extend l)) hrest ?_).mono ?_
      · rintro e he
        obtain ⟨e, hopen, rfl⟩ := Option.map_eq_some_iff.mp he
        obtain ⟨hle, hlt⟩ := hlast e hopen
        exact ⟨hle.trans (hlt l List.mem_cons_self).le, fun l' hl' => hl _ (List.mem_map_of_mem hl')⟩
      · cases last with
        | none => exact List.subset_cons_self _ _
        | some e => simp [Entry.extend]

theorem follow_entries {b : AnnotationBlock} (h : b.lineNumbers.Pairwise (· < ·)) :
    Follow b.lineNumbers (entries b).1 :=
  follow_entriesFrom none h fun _ he => absurd he (by simp)

/-- The entries of blocks whose lines follow each other. -/
theorem follow_blocks {bs : List AnnotationBlock} (h : AnnotationBlock.Ordered bs) :
    Follow (bs.flatMap (·.lineNumbers)) (bs.flatMap fun b => (entries b).1) := by
  induction bs with
  | nil => exact follow_nil _
  | cons b rest ih =>
    obtain ⟨hb, hrest, hapart⟩ := List.pairwise_append.mp h
    exact (follow_entries hb).append (ih hrest) hapart

variable {rules : AnnotationRules} {file : Text}

def Entry.isAccepted (rules : AnnotationRules) (e : Entry) : Bool :=
  !e.isSource && (e |> annotation rules).toOption.isSome

def Entry.isRejected (rules : AnnotationRules) (e : Entry) : Bool :=
  !e.isSource && (e |> annotation rules).toOption.isNone

def faultLines (ds : List Diagnostic) : List (Option Int) :=
  (ds.filter fun d => d.kind = .annotationMalformed).map (·.location.line)

theorem faultLines_append (ds ds' : List Diagnostic) : faultLines (ds ++ ds') = faultLines ds ++ faultLines ds' := by
  simp [faultLines]

theorem faultLines_flatMap {α : Type} (as : List α) (f : α → List Diagnostic) :
    faultLines (as.flatMap f) = as.flatMap fun a => faultLines (f a) := by
  simp [faultLines, List.filter_flatMap, List.map_flatMap]

theorem filter_sources {es : List Entry} (h : ∀ e ∈ es, e.isSource = true) :
    es.filter (·.isAccepted rules) = [] ∧ es.filter (·.isRejected rules) = [] := by
  simp +contextual [h, Entry.isAccepted, Entry.isRejected]

theorem spans_written {es : List Entry} (h : ∀ e ∈ es, e.isSource = false) :
    (written rules es).map (·.lineSpan) = (es.filter (·.isAccepted rules)).map (·.span) := by
  induction es with
  | nil => rfl
  | cons e rest ih =>
    obtain ⟨he, hrest⟩ := List.forall_mem_cons.mp h
    have hnext := ih hrest
    cases ha : annotation rules e with
    | error f => simpa [written, ha, Entry.isAccepted, Except.toOption] using hnext
    | ok a =>
      have hspan : a.lineSpan = e.span := by
        obtain ⟨rule, payload, _, _, rfl⟩ := annotation_ok ha
        rfl
      simpa [written, ha, Entry.isAccepted, he, Except.toOption, hspan] using hnext

theorem faultLines_rejections {es : List Entry} (h : ∀ e ∈ es, e.isSource = false) :
    faultLines (rejections rules file es) = (es.filter (·.isRejected rules)).map fun e => some (e.line : Int) := by
  induction es with
  | nil => rfl
  | cons e rest ih =>
    obtain ⟨he, hrest⟩ := List.forall_mem_cons.mp h
    have hnext := ih hrest
    cases ha : annotation rules e with
    | error f =>
      simpa [rejections, faultLines, ha, Entry.isRejected, he, Except.toOption, malformed, Diagnostic.make, Entry.span]
        using hnext
    | ok a => simpa [rejections, faultLines, ha, Entry.isRejected, Except.toOption] using hnext

theorem Passage.faultLines_runReports (rules : AnnotationRules) (file : Text) (g : Passage) :
    faultLines (g.runReports rules file) = [] := by
  have hresolve : faultLines (Provenance.resolve rules.threshold file g.run).2 = [] := by
    refine List.map_eq_nil_iff.mpr (List.filter_eq_nil_iff.mpr fun d hd => ?_)
    simp [(Provenance.placed_resolve _ d hd).1]
  rw [runReports]
  split
  · rfl
  · split
    · rfl
    · next hrun _ => exact hrun ▸ hresolve

section Passages
variable {es : List Entry} {gs : List Passage}

/-- The annotations of passages take up what their accepted directives do. -/
theorem Splits.spans (h : Splits es gs) (rules : AnnotationRules) (file : Text) :
    (gs.flatMap (·.records rules file)).map (·.lineSpan) = (es.filter (·.isAccepted rules)).map (·.span) := by
  obtain ⟨rfl, hdirectives, hsources, _⟩ := h
  rw [List.map_flatMap, List.filter_flatMap, List.map_flatMap]
  refine List.flatMap_congr fun g hg => ?_
  rw [List.filter_append, (filter_sources (hsources g hg)).1, List.append_nil, ← spans_written (hdirectives g hg),
    Passage.records, List.map_map]
  rfl

theorem Splits.faultLines (h : Splits es gs) (rules : AnnotationRules) (file : Text) :
    faultLines (gs.flatMap (·.reports rules file)) =
      (es.filter (·.isRejected rules)).map fun e => some (e.line : Int) := by
  obtain ⟨rfl, hdirectives, hsources, _⟩ := h
  rw [faultLines_flatMap, List.filter_flatMap, List.map_flatMap]
  refine List.flatMap_congr fun g hg => ?_
  rw [List.filter_append, (filter_sources (hsources g hg)).2, List.append_nil, Passage.reports, faultLines_append,
    g.faultLines_runReports, List.append_nil, faultLines_rejections (hdirectives g hg)]

end Passages

/-- What is kept of a block and what is reported about it, by its entries. -/
structure Books (rules : AnnotationRules) (b : AnnotationBlock) (r : AnnotatedBlock × List Diagnostic) : Prop where
  lineSpan : r.1.lineSpan = ⟨b.first.line, b.last.line⟩
  spans : r.1.annotations.map (·.lineSpan) = ((entries b).1.filter (·.isAccepted rules)).map (·.span)
  faults : faultLines r.2 = (entries b).2.map (fun l => some (l.line : Int)) ++
    ((entries b).1.filter (·.isRejected rules)).map fun e => some (e.line : Int)

theorem exists_books (hmode : rules.mode = .permissive) (file : Text) (b : AnnotationBlock) :
    ∃ r, ofBlock rules file b = .ok r ∧ Books rules b r := by
  obtain ⟨gs, hgs⟩ := exists_splits (entries b).1
  refine ⟨_, ofBlock_passages hmode file hgs, rfl, hgs.spans rules file, ?_⟩
  have hheaders : faultLines ((entries b).2.map fun l => malformed file (.single l.line) (.header l.body)) =
      (entries b).2.map fun l => some (l.line : Int) := by
    simp [faultLines, malformed, Diagnostic.make, LineSpan.single, List.filter_map, Function.comp_def]
  rw [faultLines_append, hheaders, hgs.faultLines]

/-- What a directive line stands for: a source line, the start of one annotation, or one fault. -/
inductive Fate : (isSource : Bool) → (starts faults : Nat) → Prop where
  | source : Fate true 0 0
  | stated : Fate false 1 0
  | faulty : Fate false 0 1

structure Listed (ls : List BlockLine) (es : List Entry) (bad : List BlockLine) : Prop where
  headers : es.map Entry.header = ls.filterMap header?
  malformed : bad = ls.filter fun l => (header? l).isNone
  distinct : (ls.map (·.line)).Nodup

theorem count_map_filter {α : Type} {xs : List α} {f : α → Nat} (h : (xs.map f).Nodup) (p : α → Bool) {x : α}
    (hx : x ∈ xs) : ((xs.filter p).map f).count (f x) = if p x then 1 else 0 := by
  have hsub : ((xs.filter p).map f).Sublist (xs.map f) := List.filter_sublist.map f
  have hmem : f x ∈ (xs.filter p).map f ↔ p x = true := by
    constructor
    · intro hfx
      obtain ⟨y, hy, he⟩ := List.mem_map.mp hfx
      obtain ⟨hy, hp⟩ := List.mem_filter.mp hy
      exact List.inj_on_of_nodup_map h hy hx he ▸ hp
    · exact fun hp => List.mem_map_of_mem (List.mem_filter.mpr ⟨hx, hp⟩)
  rw [(h.sublist hsub).count]
  exact if_congr hmem rfl rfl

namespace Listed
variable {ls bad : List BlockLine} {es : List Entry} {l : BlockLine} {e : Entry}

theorem sublist_header? (ls : List BlockLine) : ((ls.filterMap header?).map (·.1)).Sublist (ls.map (·.line)) := by
  induction ls with
  | nil => exact List.Sublist.refl _
  | cons l rest ih =>
    cases hparse : DirectiveLine.parse? l.body with
    | none => simpa [header?, hparse] using ih.cons l.line
    | some d => simpa [header?, hparse] using ih

theorem nodup_lines (h : Listed ls es bad) : (es.map (·.line)).Nodup := by
  have hlines : es.map (·.line) = (ls.filterMap header?).map (·.1) := by
    rw [← h.headers, List.map_map]
    rfl
  exact hlines ▸ h.distinct.sublist (sublist_header? ls)

theorem eq_of_line (h : Listed ls es bad) {l' : BlockLine} (hl : l ∈ ls) (hl' : l' ∈ ls) (he : l.line = l'.line) :
    l = l' :=
  List.inj_on_of_nodup_map h.distinct hl hl' he

theorem exists_directive (h : Listed ls es bad) (he : e ∈ es) : ∃ l ∈ ls, header? l = some e.header :=
  List.mem_filterMap.mp (h.headers ▸ List.mem_map_of_mem he)

theorem exists_entry (h : Listed ls es bad) (hl : l ∈ ls) {p : Nat × Text} (hp : header? l = some p) :
    ∃ e ∈ es, e.header = p :=
  List.mem_map.mp (h.headers ▸ List.mem_filterMap.mpr ⟨l, hl, hp⟩)

theorem line_of_header? {p : Nat × Text} (h : header? l = some p) : p.1 = l.line := by
  obtain ⟨d, _, rfl⟩ := Option.map_eq_some_iff.mp h
  rfl

theorem isSourceBody_of_header (h : header? l = some e.header) : BlockLine.isSourceBody l.body = e.isSource := by
  obtain ⟨d, hd, he⟩ := Option.map_eq_some_iff.mp h
  rw [BlockLine.isSourceBody, hd, Entry.isSource, ← (Prod.mk.inj he).2]
  rfl

/-- A directive line has an entry or is among the others, and its entry has one fate. -/
theorem fate (h : Listed ls es bad) (rules : AnnotationRules) (hl : l ∈ ls) : Fate (BlockLine.isSourceBody l.body)
    (((es.filter (·.isAccepted rules)).map (·.line)).count l.line)
    ((bad.map (·.line) ++ (es.filter (·.isRejected rules)).map (·.line)).count l.line) := by
  have hbad : (bad.map (·.line)).count l.line = if (header? l).isNone then 1 else 0 := by
    rw [h.malformed, count_map_filter h.distinct _ hl]
  rw [List.count_append, hbad]
  -- Lines are distinct, so what stands at this line belongs to this directive.
  cases hheader : header? l with
  | none =>
    have hno : ∀ p : Entry → Bool, ((es.filter p).map (·.line)).count l.line = 0 := by
      refine fun p => List.count_eq_zero.mpr fun hmem => ?_
      obtain ⟨e, he, hline⟩ := List.mem_map.mp hmem
      obtain ⟨l', hl', hheader'⟩ := h.exists_directive (List.mem_of_mem_filter he)
      obtain rfl := h.eq_of_line hl hl' (hline.symm.trans (line_of_header? hheader'))
      exact absurd (hheader.symm.trans hheader') nofun
    have hsource : BlockLine.isSourceBody l.body = false := by
      rw [BlockLine.isSourceBody, Option.map_eq_none_iff.mp hheader]
      rfl
    rw [hno, hno, hsource]
    exact .faulty
  | some p =>
    obtain ⟨e, he, rfl⟩ := h.exists_entry hl hheader
    have hline : e.line = l.line := line_of_header? hheader
    rw [← hline, count_map_filter h.nodup_lines _ he, count_map_filter h.nodup_lines _ he,
      isSourceBody_of_header hheader]
    cases hsource : e.isSource with
    | true => simpa [Entry.isAccepted, Entry.isRejected, hsource] using Fate.source
    | false =>
      cases hstated : (e |> annotation rules).toOption with
      | none => simpa [Entry.isAccepted, Entry.isRejected, hsource, hstated] using Fate.faulty
      | some a => simpa [Entry.isAccepted, Entry.isRejected, hsource, hstated] using Fate.stated

end Listed

theorem flatMap_filter_annotations (bs : List AnnotatedBlock) :
    (bs.filter fun b => !b.annotations.isEmpty).flatMap (·.annotations) = bs.flatMap (·.annotations) := by
  induction bs with
  | nil => rfl
  | cons b rest ih =>
    cases hb : b.annotations with
    | nil => simp [hb, ih]
    | cons a more => simp [hb, ih]

end AnnotatedBlock

namespace Annotations
open AnnotatedBlock
open AnnotationRecord (starts)

def records (as : Annotations) : List AnnotationRecord := as.blocks.flatMap (·.annotations)

/-- Annotations and reports that account for every directive line of a text. -/
structure Accounts (cs : List CommentLine) (as : Annotations) : Prop where
  directives : ∀ c ∈ cs, ∀ body ∈ c.body, BlockLine.startsDirective body = true →
    Fate (BlockLine.isSourceBody body) ((starts as.records).count (c.line : Int))
      ((faultLines as.reports).count (some (c.line : Int)))
  starts : ∀ a ∈ as.records, ∃ c ∈ cs, (BlockLine.directive? c).isSome ∧ a.lineSpan.start = c.line
  faults : ∀ n ∈ faultLines as.reports, ∃ c ∈ cs, (BlockLine.directive? c).isSome ∧ n = some (c.line : Int)
  spans : ∀ a ∈ as.records, a.lineSpan.start ≤ a.lineSpan.stop
  apart : as.records.Pairwise fun a a' => a.lineSpan.stop < a'.lineSpan.start
  inside : ∀ b ∈ as.blocks, ∀ a ∈ b.annotations, b.lineSpan.start ≤ a.lineSpan.start ∧ a.lineSpan.stop ≤ b.lineSpan.stop

def entriesOf (bs : List AnnotationBlock) : List Entry := bs.flatMap fun b => (entries b).1

def malformedOf (bs : List AnnotationBlock) : List BlockLine := bs.flatMap fun b => (entries b).2

theorem listed_blocks {bs : List AnnotationBlock} (h : AnnotationBlock.Ordered bs) :
    Listed (bs.flatMap (·.directives)) (entriesOf bs) (malformedOf bs) := by
  constructor
  case headers =>
    rw [entriesOf, List.map_flatMap, List.filterMap_flatMap]
    exact List.flatMap_congr fun b _ => headers_entriesFrom none b.lines
  case malformed =>
    rw [malformedOf, List.filter_flatMap]
    exact List.flatMap_congr fun b _ => malformed_entriesFrom none b.lines
  case distinct =>
    have hsub : ((bs.flatMap (·.directives)).map (·.line)).Sublist (bs.flatMap (·.lineNumbers)) := by
      rw [List.map_flatMap]
      exact sublist_flatMap_of_forall₂ (List.forall₂_same.mpr fun b _ => List.filter_sublist.map _)
    exact (h.imp Nat.ne_of_lt).sublist hsub

structure Kept (rules : AnnotationRules) (bs : List AnnotationBlock) (as : Annotations) : Prop where
  spans : as.records.map (·.lineSpan) = ((entriesOf bs).filter (·.isAccepted rules)).map (·.span)
  faults : (faultLines as.reports).Perm
    (((malformedOf bs).map (·.line) ++ ((entriesOf bs).filter (·.isRejected rules)).map (·.line)).map
      fun n : Nat => some (n : Int))
  blocks : ∀ ab ∈ as.blocks, ∃ b ∈ bs, ∃ reports, Books rules b (ab, reports)

theorem exists_kept (rules : AnnotationRules) (hmode : rules.mode = .permissive) (s : CommentSyntax) (file t : Text) :
    ∃ as, ofText rules s file t = .ok as ∧ Kept rules (AnnotationBlock.scan s t) as := by
  choose r hr hbooks using exists_books hmode file
  have hall : ofBlock rules file = fun b => pure (r b) := funext hr
  refine ⟨_, by rw [ofText, hall, List.mapM_pure, pure_bind], ?_⟩
  constructor
  case spans =>
    rw [records, flatMap_filter_annotations, entriesOf]
    simp only [List.map_map, List.flatMap_map, List.map_flatMap, List.filter_flatMap]
    exact List.flatMap_congr fun b _ => (hbooks b).spans
  case faults =>
    rw [faultLines_flatMap, List.flatMap_map, entriesOf, malformedOf]
    simp only [(hbooks _).faults, List.map_append, List.map_map, List.map_flatMap, List.filter_flatMap]
    exact (List.flatMap_append_perm _ _ _).symm
  case blocks =>
    intro ab hab
    obtain ⟨p, hp, rfl⟩ := List.mem_map.mp (List.mem_filter.mp hab).1
    obtain ⟨b, hb, rfl⟩ := List.mem_map.mp hp
    exact ⟨b, hb, (r b).2, hbooks b⟩

namespace Kept
variable {rules : AnnotationRules} {bs : List AnnotationBlock} {as : Annotations}

theorem starts_eq (h : Kept rules bs as) : starts as.records =
    (((entriesOf bs).filter (·.isAccepted rules)).map (·.line)).map fun n : Nat => (n : Int) := by
  have hmap := congrArg (List.map LineSpan.start) h.spans
  rw [List.map_map, List.map_map] at hmap
  rw [List.map_map]
  exact hmap

theorem fate (h : Kept rules bs as) (hbs : AnnotationBlock.Ordered bs) {l : BlockLine}
    (hl : l ∈ bs.flatMap (·.directives)) :
    Fate (BlockLine.isSourceBody l.body) ((starts as.records).count (l.line : Int))
      ((faultLines as.reports).count (some (l.line : Int))) := by
  have hcast : Function.Injective fun n : Nat => (n : Int) := fun _ _ => Int.ofNat.inj
  have hsome : Function.Injective fun n : Nat => some (n : Int) := fun _ _ he => hcast (Option.some.inj he)
  have hfate := (listed_blocks hbs).fate rules hl
  rw [← List.count_map_of_injective _ _ hcast, ← h.starts_eq, ← List.count_map_of_injective _ _ hsome,
    ← h.faults.count_eq] at hfate
  exact hfate

/-- An annotation takes up the lines of an entry. -/
theorem exists_entry (h : Kept rules bs as) {a : AnnotationRecord} (ha : a ∈ as.records) :
    ∃ e ∈ entriesOf bs, a.lineSpan = e.span := by
  have hmem : a.lineSpan ∈ as.records.map (·.lineSpan) := List.mem_map_of_mem ha
  rw [h.spans] at hmem
  obtain ⟨e, he, hspan⟩ := List.mem_map.mp hmem
  exact ⟨e, List.mem_of_mem_filter he, hspan.symm⟩

theorem exists_directive (h : Kept rules bs as) (hbs : AnnotationBlock.Ordered bs) {a : AnnotationRecord}
    (ha : a ∈ as.records) : ∃ l ∈ bs.flatMap (·.directives), a.lineSpan.start = l.line := by
  obtain ⟨e, he, hspan⟩ := h.exists_entry ha
  obtain ⟨l, hl, hheader⟩ := (listed_blocks hbs).exists_directive he
  refine ⟨l, hl, ?_⟩
  rw [hspan, ← Listed.line_of_header? hheader]
  rfl

theorem exists_faulty (h : Kept rules bs as) (hbs : AnnotationBlock.Ordered bs) {n : Option Int}
    (hn : n ∈ faultLines as.reports) : ∃ l ∈ bs.flatMap (·.directives), n = some (l.line : Int) := by
  obtain ⟨m, hm, rfl⟩ := List.mem_map.mp (h.faults.mem_iff.mp hn)
  have hlisted := listed_blocks hbs
  cases List.mem_append.mp hm with
  | inl hm =>
    obtain ⟨l, hl, rfl⟩ := List.mem_map.mp hm
    rw [hlisted.malformed] at hl
    exact ⟨l, List.mem_of_mem_filter hl, rfl⟩
  | inr hm =>
    obtain ⟨e, he, rfl⟩ := List.mem_map.mp hm
    obtain ⟨l, hl, hheader⟩ := hlisted.exists_directive (List.mem_of_mem_filter he)
    exact ⟨l, hl, by rw [← Listed.line_of_header? hheader]; rfl⟩

theorem apart (h : Kept rules bs as) (hbs : AnnotationBlock.Ordered bs) :
    as.records.Pairwise fun a a' => a.lineSpan.stop < a'.lineSpan.start := by
  have hentries : (((entriesOf bs).filter (·.isAccepted rules)).map (·.span)).Pairwise fun s s' => s.stop < s'.start :=
    List.pairwise_map.mpr (((follow_blocks hbs).apart.filter _).imp Int.ofNat_lt.mpr)
  rw [← h.spans] at hentries
  exact List.pairwise_map.mp hentries

theorem span_le (h : Kept rules bs as) (hbs : AnnotationBlock.Ordered bs) {a : AnnotationRecord} (ha : a ∈ as.records) :
    a.lineSpan.start ≤ a.lineSpan.stop := by
  obtain ⟨e, he, hspan⟩ := h.exists_entry ha
  rw [hspan]
  exact Int.ofNat_le.mpr ((follow_blocks hbs).le e he)

theorem inside (h : Kept rules bs as) (hbs : AnnotationBlock.Ordered bs) {ab : AnnotatedBlock} (hab : ab ∈ as.blocks)
    {a : AnnotationRecord} (ha : a ∈ ab.annotations) :
    ab.lineSpan.start ≤ a.lineSpan.start ∧ a.lineSpan.stop ≤ ab.lineSpan.stop := by
  obtain ⟨b, hb, reports, hlineSpan, hspans, _⟩ := h.blocks ab hab
  have hlines : b.lineNumbers.Pairwise (· < ·) := (List.pairwise_flatMap.mp hbs).1 b hb
  have hfollow := follow_entries hlines
  have hmem : a.lineSpan ∈ ab.annotations.map (·.lineSpan) := List.mem_map_of_mem ha
  rw [hspans] at hmem
  obtain ⟨e, he, hspan⟩ := List.mem_map.mp hmem
  have he : e ∈ (entries b).1 := List.mem_of_mem_filter he
  rw [hlineSpan, ← hspan]
  exact ⟨Int.ofNat_le.mpr (AnnotationBlock.bounds_of_mem_lineNumbers hlines (hfollow.start e he)).1,
    Int.ofNat_le.mpr (AnnotationBlock.bounds_of_mem_lineNumbers hlines (hfollow.stop e he)).2⟩

end Kept

/-- In permissive mode every text has annotations, and they account for its directive lines. -/
theorem accounts_ofText (threshold : Number) (custom : List Text) (s : CommentSyntax) (file t : Text) :
    ∃ as, ofText ⟨.permissive, threshold, custom⟩ s file t = .ok as ∧ Accounts (CommentLine.classify s t) as := by
  obtain ⟨as, has, hkept⟩ := exists_kept ⟨.permissive, threshold, custom⟩ rfl s file t
  have hordered := AnnotationBlock.ordered_scan s t
  have hline : ∀ l ∈ (AnnotationBlock.scan s t).flatMap (·.directives), ∃ c ∈ CommentLine.classify s t,
      (BlockLine.directive? c).isSome = true ∧ l.line = c.line := by
    intro l hl
    obtain ⟨c, hc, hd⟩ := List.mem_filterMap.mp (AnnotationBlock.directives_scan s t ▸ hl)
    exact ⟨c, hc, Option.isSome_of_eq_some hd, AnnotationBlock.line_directive? hd⟩
  refine ⟨as, has, ?_⟩
  constructor
  case directives =>
    intro c hc body hbody hdirective
    refine hkept.fate hordered (l := BlockLine.ofBody c.line body) ?_
    rw [AnnotationBlock.directives_scan]
    exact List.mem_filterMap.mpr ⟨c, hc, BlockLine.directive?_eq_some.mpr ⟨body, hbody, hdirective, rfl⟩⟩
  case starts =>
    intro a ha
    obtain ⟨l, hl, hstart⟩ := hkept.exists_directive hordered ha
    obtain ⟨c, hc, hd, hline⟩ := hline l hl
    exact ⟨c, hc, hd, hline ▸ hstart⟩
  case faults =>
    intro n hn
    obtain ⟨l, hl, rfl⟩ := hkept.exists_faulty hordered hn
    obtain ⟨c, hc, hd, hline⟩ := hline l hl
    exact ⟨c, hc, hd, by rw [hline]⟩
  case spans => exact fun a ha => hkept.span_le hordered ha
  case apart => exact hkept.apart hordered
  case inside => exact fun b hb a ha => hkept.inside hordered hb ha

end Annotations
end AnnotationIndex
