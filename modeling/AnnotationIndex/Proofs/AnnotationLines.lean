import AnnotationIndex.Proofs.Annotation
import AnnotationIndex.Proofs.LineNumbers
import AnnotationIndex.Proofs.Schema

/-!
Line numbers and confidences of annotations. Every annotation and every report of a text stands at lines of the
text, and a confidence is in the unit interval however it was written.
-/
namespace AnnotationIndex
open Text

section Yields
variable {ε α β : Type} {E : ε → Prop} {Q : α → Prop} {R : β → Prop}

def Yields (E : ε → Prop) (Q : α → Prop) : Except ε α → Prop
  | .ok a => Q a
  | .error e => E e

theorem Yields.bind {x : Except ε α} {f : α → Except ε β} (h : Yields E Q x) (hf : ∀ a, Q a → Yields E R (f a)) :
    Yields E R (x >>= f) := by
  cases x with
  | ok a => exact hf a h
  | error e => exact h

theorem Yields.mapM {f : α → Except ε β} {as : List α} (h : ∀ a ∈ as, Yields E R (f a)) :
    Yields E (fun bs => ∀ b ∈ bs, R b) (as.mapM f) := by
  induction as with
  | nil => exact fun _ hb => absurd hb List.not_mem_nil
  | cons a rest ih =>
    obtain ⟨ha, hrest⟩ := List.forall_mem_cons.mp h
    rw [List.mapM_cons]
    exact ha.bind fun b hb => (ih hrest).bind fun bs hbs => List.forall_mem_cons.mpr ⟨hb, hbs⟩

theorem Yields.foldlM {f : β → α → Except ε β} {as : List α} (h : ∀ a ∈ as, ∀ b, R b → Yields E R (f b a)) {b : β}
    (hb : R b) : Yields E R (as.foldlM f b) := by
  induction as generalizing b with
  | nil => exact hb
  | cons a rest ih =>
    obtain ⟨ha, hrest⟩ := List.forall_mem_cons.mp h
    rw [List.foldlM_cons]
    exact (ha b hb).bind fun b' hb' => ih hrest hb'

end Yields

section Lines
variable {k : Nat}

/-- The comment lines of a text are numbered by its lines. -/
theorem CommentLine.line_classifyFrom {s : CommentSyntax} {open? : Option BlockDelimiter} {n : Nat} {ls : List Text}
    (h : Fits k n ls) : ∀ c ∈ classifyFrom s open? n ls, c.line ≤ k := by
  induction ls generalizing open? n with
  | nil => exact fun _ hc => by cases open? <;> exact absurd hc List.not_mem_nil
  | cons raw rest ih =>
    cases open? with
    | none => exact List.forall_mem_cons.mpr ⟨h.head, ih h.tail⟩
    | some d => exact List.forall_mem_cons.mpr ⟨h.head, ih h.tail⟩

theorem CommentLine.line_classify (s : CommentSyntax) (t : Text) : ∀ c ∈ classify s t, c.line ≤ lineCount t :=
  line_classifyFrom (.of_length_le (Nat.le_refl _))

def AnnotationBlock.Within (k : Nat) (b : AnnotationBlock) : Prop := ∀ l ∈ b.lines, l.line ≤ k

namespace AnnotationBlock

theorem line_directive? {c : CommentLine} {l : BlockLine} (h : BlockLine.directive? c = some l) : l.line = c.line := by
  unfold BlockLine.directive? at h
  split at h
  · split at h
    · exact Option.some.inj h ▸ rfl
    · exact absurd h (by simp)
  · exact absurd h (by simp)

theorem line_continues? {indent : Nat} {c : CommentLine} {l : BlockLine} (h : BlockLine.continues? indent c = some l) :
    l.line = c.line := by
  unfold BlockLine.continues? at h
  split at h
  · split at h
    · exact Option.some.inj h ▸ rfl
    · exact absurd h (by simp)
  · exact absurd h (by simp)

theorem within_scanFrom {open? : Option (BlockLine × List BlockLine)} {cs : List CommentLine}
    (ho : ∀ p ∈ open?, ∀ l ∈ p.1 :: p.2, l.line ≤ k) (hc : ∀ c ∈ cs, c.line ≤ k) :
    ∀ b ∈ scanFrom open? cs, b.Within k := by
  have hclosed : ∀ (first : BlockLine) (others : List BlockLine), (∀ l ∈ first :: others, l.line ≤ k) →
      AnnotationBlock.Within k ⟨first, others.reverse⟩ := by
    intro first others h
    obtain ⟨hfirst, hothers⟩ := List.forall_mem_cons.mp h
    exact List.forall_mem_cons.mpr ⟨hfirst, fun l hl => hothers l (List.mem_reverse.mp hl)⟩
  induction cs generalizing open? with
  | nil =>
    intro b hb
    cases open? with
    | none => exact absurd hb List.not_mem_nil
    | some p =>
      rw [scanFrom, closed] at hb
      exact List.mem_singleton.mp hb ▸ hclosed _ _ (ho _ rfl)
  | cons c rest ih =>
    obtain ⟨hline, hrest⟩ := List.forall_mem_cons.mp hc
    cases open? with
    | none =>
      rw [scanFrom]
      refine ih (fun p hp => ?_) hrest
      obtain ⟨l, hl, rfl⟩ := Option.map_eq_some_iff.mp hp
      exact fun l' hl' => List.mem_singleton.mp hl' ▸ line_directive? hl ▸ hline
    | some p =>
      obtain ⟨first, others⟩ := p
      have hopen := ho _ rfl
      rw [scanFrom]
      split
      · next l hl =>
        refine ih (fun p hp => ?_) hrest
        obtain rfl := Option.some.inj hp
        obtain ⟨hfirst, hothers⟩ := List.forall_mem_cons.mp hopen
        refine List.forall_mem_cons.mpr ⟨hfirst, List.forall_mem_cons.mpr ⟨?_, hothers⟩⟩
        exact line_continues? hl ▸ hline
      · exact List.forall_mem_cons.mpr ⟨hclosed _ _ hopen, ih (fun _ hp => absurd hp (by simp)) hrest⟩

theorem within_scan (s : CommentSyntax) (t : Text) : ∀ b ∈ scan s t, b.Within (lineCount t) :=
  within_scanFrom (fun _ hp => absurd hp (by simp)) (CommentLine.line_classify s t)

end AnnotationBlock

structure Location.Within (k : Nat) (l : Location) : Prop where
  line : ∀ n ∈ l.line, n.natAbs ≤ k
  endLine : ∀ n ∈ l.endLine, n.natAbs ≤ k

theorem Location.within_span {file : Text} {s : LineSpan} (h : s.Within k) :
    Location.Within k ⟨file, some s.start, some s.stop⟩ :=
  ⟨fun _ hn => Option.some.inj hn ▸ h.1, fun _ hn => Option.some.inj hn ▸ h.2⟩

theorem Location.within_line {file : Text} {n : Int} (h : n.natAbs ≤ k) : Location.Within k ⟨file, some n, none⟩ :=
  ⟨fun _ hn => Option.some.inj hn ▸ h, fun _ hn => absurd hn (by simp)⟩

theorem Location.within_file (k : Nat) (file : Text) : Location.Within k ⟨file, none, none⟩ :=
  ⟨fun _ hn => absurd hn (by simp), fun _ hn => absurd hn (by simp)⟩

end Lines

section Confidences

theorem Number.confidence_zero : Confidence zero where
  double := .finite (by decide) (by decide) (by decide) (.inr rfl)
  notBelow := by decide +kernel
  notAbove := by decide +kernel

theorem Number.confidence_one : Confidence (ofNat 1) := by
  have hone : ofNat 1 = finite (2 ^ 52) (-52) := by decide
  rw [hone]
  exact ⟨.finite (by decide) (by decide) (by decide) (.inl (by decide)), by decide +kernel, by decide +kernel⟩

/-- A decimal in the unit interval is a confidence. -/
theorem Number.confidence_of_decimal {raw : Text} {v : Number} (h : Provenance.decimal? raw = some v)
    (hlow : v.lt zero = false) (hhigh : (ofNat 1).lt v = false) : v.Confidence := by
  have hparts : ∃ negative digits exponent, v = ofDecimal negative digits exponent := by
    unfold Provenance.decimal? at h
    dsimp only at h
    repeat' split at h
    all_goals
      first
      | exact ⟨_, _, _, (Option.some.inj h).symm⟩
      | exact absurd h (by simp)
  obtain ⟨negative, digits, exponent, rfl⟩ := hparts
  refine ⟨double_ofDecimal negative digits exponent fun hinf => ?_, hlow, hhigh⟩
  rw [hinf] at hlow hhigh
  cases negative with
  | false => exact absurd hhigh (by decide)
  | true => exact absurd hlow (by decide)

theorem Provenance.confidence_of_read {raw : Text} {v : Number} (h : readConfidence raw = .ok v) : v.Confidence := by
  unfold readConfidence at h
  split at h
  · exact absurd h (by simp)
  next v' hv =>
  split at h
  · exact absurd h (by simp)
  next hrange =>
  obtain rfl := Except.ok.inj h
  rw [Bool.or_eq_true, not_or, Bool.not_eq_true, Bool.not_eq_true] at hrange
  exact Number.confidence_of_decimal hv hrange.1 hrange.2

theorem ConfidenceFault.confidence_replacement (f : ConfidenceFault) : ∀ c ∈ f.replacement, c.Confidence := by
  cases f with
  | notANumber => exact fun _ hc => absurd hc (by simp [replacement])
  | outside raw v =>
    intro c hc
    obtain rfl := Option.some.inj hc
    split
    · exact Number.confidence_zero
    · exact Number.confidence_one

end Confidences

section Provenance
variable {k : Nat} {mode : ValidationMode} {file : Text}

namespace Provenance

structure Draft.Within (k : Nat) (d : Draft) : Prop where
  confidence : ∀ c ∈ d.confidence, c.Confidence
  reports : ∀ r ∈ d.reports, r.location.Within k

variable {d : Draft}

theorem Draft.within_start (k : Nat) : Draft.start.Within k :=
  ⟨fun _ hc => absurd hc (by simp [start]), fun _ hr => absurd hr List.not_mem_nil⟩

theorem Draft.within_report (h : d.Within k) {line : Int} (hline : line.natAbs ≤ k) (message : Text) :
    (d.report file line message).Within k :=
  ⟨h.confidence, List.forall_mem_append.mpr
    ⟨h.reports, fun _ hr => List.mem_singleton.mp hr ▸ Location.within_line hline⟩⟩

theorem Draft.within_setConfidence (h : d.Within k) {s : SourceLine} (hline : s.line.natAbs ≤ k) (raw : Text) :
    (d.setConfidence file s (readConfidence raw)).Within k := by
  cases hr : readConfidence raw with
  | ok c => exact ⟨fun _ hc => Option.some.inj hc ▸ confidence_of_read hr, h.reports⟩
  | error f =>
    exact within_report (d := { d with confidence := f.replacement }) ⟨f.confidence_replacement, h.reports⟩ hline _

theorem Draft.within_step (h : d.Within k) {s : SourceLine} (hline : s.line.natAbs ≤ k) :
    Yields (fun e => e.1.natAbs ≤ k) (Draft.Within k) (Draft.step mode file d s) := by
  unfold Draft.step
  dsimp only
  split
  · split
    · exact ⟨h.confidence, h.reports⟩
    · exact within_report (d := { d with origin := .heuristic }) ⟨h.confidence, h.reports⟩ hline _
  split
  · split
    · exact hline
    · exact within_setConfidence h hline _
  repeat' split
  all_goals
    first
    | exact ⟨h.confidence, h.reports⟩
    | exact within_report h hline _

/-- The provenance of a group: a confidence that may stand, and reports at the lines of the group. -/
theorem within_ofGroup (mode : ValidationMode) (threshold : Number) (file : Text) {group : List SourceLine}
    (h : ∀ s ∈ group, s.line.natAbs ≤ k) :
    Yields (fun e => e.1.natAbs ≤ k)
      (fun r => (∀ c ∈ r.1.confidence, c.Confidence) ∧ ∀ d ∈ r.2, d.location.Within k)
      (ofGroup mode threshold file group) := by
  have hdraft : Yields (fun e => e.1.natAbs ≤ k) (Draft.Within k) (group.foldlM (Draft.step mode file) Draft.start) :=
    Yields.foldlM (fun s hs d hd => Draft.within_step hd (h s hs)) (Draft.within_start k)
  unfold ofGroup
  cases hfold : group.foldlM (Draft.step mode file) Draft.start with
  | error e =>
    rw [hfold] at hdraft
    exact hdraft
  | ok d =>
    rw [hfold] at hdraft
    exact ⟨hdraft.confidence, hdraft.reports⟩

end Provenance
end Provenance

structure AnnotationRecord.Within (k : Nat) (a : AnnotationRecord) : Prop where
  lineSpan : a.lineSpan.Within k
  confidence : ∀ c ∈ a.provenance.confidence, c.Confidence

namespace AnnotatedBlock
variable {k : Nat} {rules : AnnotationRules} {file : Text}

structure Entry.Within (k : Nat) (e : Entry) : Prop where
  line : e.line ≤ k
  lastLine : e.lastLine ≤ k

theorem Entry.Within.span {e : Entry} (h : e.Within k) : e.span.Within k := ⟨h.line, h.lastLine⟩

theorem within_entriesFrom {last : Option Entry} {ls : List BlockLine} (hlast : ∀ e ∈ last, e.Within k)
    (h : ∀ l ∈ ls, l.line ≤ k) :
    (∀ e ∈ (entriesFrom last ls).1, e.Within k) ∧ ∀ l ∈ (entriesFrom last ls).2, l.line ≤ k := by
  have hlist : ∀ e ∈ last.toList, e.Within k := fun e he => hlast e (Option.mem_toList.mp he)
  induction ls generalizing last with
  | nil => exact ⟨hlist, fun _ hl => absurd hl List.not_mem_nil⟩
  | cons l rest ih =>
    obtain ⟨hl, hrest⟩ := List.forall_mem_cons.mp h
    rw [entriesFrom]
    split
    · split
      · next d _ =>
        have hone : ∀ e ∈ some (Entry.mk d l.line l.line), e.Within k := fun e he => Option.some.inj he ▸ ⟨hl, hl⟩
        obtain ⟨hentries, hbad⟩ := ih hone hrest fun e he => hone e (Option.mem_toList.mp he)
        exact ⟨List.forall_mem_append.mpr ⟨hlist, hentries⟩, hbad⟩
      · have hnone : ∀ e ∈ (none : Option Entry), e.Within k := fun _ he => absurd he (by simp)
        obtain ⟨hentries, hbad⟩ := ih hnone hrest fun e he => hnone e (Option.mem_toList.mp he)
        exact ⟨List.forall_mem_append.mpr ⟨hlist, hentries⟩, List.forall_mem_cons.mpr ⟨hl, hbad⟩⟩
    · have hextend : ∀ e ∈ last.map (·.extend l), e.Within k := by
        intro e he
        obtain ⟨e', he', rfl⟩ := Option.map_eq_some_iff.mp he
        exact ⟨(hlast e' he').line, hl⟩
      exact ih hextend hrest fun e he => hextend e (Option.mem_toList.mp he)

theorem within_reject {span : LineSpan} (h : span.Within k) (fault : AnnotationFault) :
    Yields (fun r => r.span.Within k) (fun d => d.location.Within k) (reject rules file span fault) := by
  unfold reject
  split
  · exact h
  · exact Location.within_span h

theorem within_annotation {e : Entry} (he : e.Within k) {a : AnnotationRecord} (h : annotation rules e = .ok a) :
    a.Within k := by
  obtain ⟨rule, payload, _, _, rfl⟩ := annotation_ok h
  exact ⟨he.span, fun _ hc => absurd hc (by simp [Entry.stating, Provenance.byHand])⟩

namespace Progress

structure Within (k : Nat) (p : Progress) : Prop where
  settled : ∀ a ∈ p.settled, a.Within k
  pending : ∀ a ∈ p.pending, a.Within k
  group : ∀ s ∈ p.group, s.line.natAbs ≤ k
  reports : ∀ d ∈ p.reports, d.location.Within k

variable {p : Progress}

theorem within_endGroup (h : p.Within k) :
    Yields (fun r => r.span.Within k) (Within k) (p.endGroup rules file) := by
  unfold endGroup
  split
  · exact h
  next first more hgroup =>
  have hfirst : first.line.natAbs ≤ k := h.group first (hgroup ▸ List.mem_cons_self)
  split
  · exact ⟨h.settled, h.pending, fun _ hs => absurd hs List.not_mem_nil, List.forall_mem_append.mpr
      ⟨h.reports, fun _ hd => List.mem_singleton.mp hd ▸ Location.within_line hfirst⟩⟩
  · have hgroup := Provenance.within_ofGroup rules.mode rules.threshold file h.group
    split
    · next hr =>
      rw [hr] at hgroup
      exact ⟨hgroup, hgroup⟩
    · next provenance reports hr =>
      rw [hr] at hgroup
      refine ⟨List.forall_mem_append.mpr ⟨h.settled, fun a ha => ?_⟩, fun _ ha => absurd ha List.not_mem_nil,
        fun _ hs => absurd hs List.not_mem_nil, List.forall_mem_append.mpr ⟨h.reports, hgroup.2⟩⟩
      obtain ⟨a', ha', rfl⟩ := List.mem_map.mp ha
      exact ⟨(h.pending a' ha').lineSpan, hgroup.1⟩

theorem within_step (h : p.Within k) {e : Entry} (he : e.Within k) :
    Yields (fun r => r.span.Within k) (Within k) (p.step rules file e) := by
  unfold step
  split
  · exact ⟨h.settled, h.pending, List.forall_mem_append.mpr
      ⟨h.group, fun _ hs => List.mem_singleton.mp hs ▸ he.line⟩, h.reports⟩
  · refine (within_endGroup h).bind fun q hq => ?_
    split
    · next a ha =>
      exact ⟨hq.settled, List.forall_mem_append.mpr
        ⟨hq.pending, fun _ ha' => List.mem_singleton.mp ha' ▸ within_annotation he ha⟩, hq.group, hq.reports⟩
    · exact (within_reject he.span _).bind fun d hd =>
        ⟨hq.settled, hq.pending, hq.group, List.forall_mem_append.mpr
          ⟨hq.reports, fun _ hd' => List.mem_singleton.mp hd' ▸ hd⟩⟩

end Progress

structure Within (k : Nat) (ab : AnnotatedBlock) : Prop where
  lineSpan : ab.lineSpan.Within k
  annotations : ∀ a ∈ ab.annotations, a.Within k

theorem within_ofBlock {b : AnnotationBlock} (h : b.Within k) : Yields (fun r => r.span.Within k)
    (fun r => r.1.Within k ∧ ∀ d ∈ r.2, d.location.Within k) (ofBlock rules file b) := by
  have hnone : ∀ e ∈ (none : Option Entry), e.Within k := fun _ he => absurd he (by simp)
  obtain ⟨hentries, hbad⟩ := within_entriesFrom hnone h
  have hspan : LineSpan.Within k ⟨b.first.line, b.last.line⟩ := by
    refine ⟨h _ List.mem_cons_self, h _ ?_⟩
    rw [AnnotationBlock.last, AnnotationBlock.lines, List.getLastD_eq_getLast?]
    cases hlast : b.others.getLast? with
    | none => exact List.mem_cons_self
    | some l => exact List.mem_cons_of_mem _ (List.mem_of_mem_getLast? hlast)
  unfold ofBlock
  refine (Yields.mapM fun l hl => within_reject ⟨hbad l hl, hbad l hl⟩ _).bind fun reports hreports => ?_
  refine (Yields.foldlM (fun e he p hp => Progress.within_step hp (hentries e he))
    ⟨fun _ ha => absurd ha List.not_mem_nil, fun _ ha => absurd ha List.not_mem_nil,
      fun _ hs => absurd hs List.not_mem_nil, hreports⟩).bind fun p hp => ?_
  refine (Progress.within_endGroup hp).bind fun p hp => ?_
  exact ⟨⟨hspan, List.forall_mem_append.mpr ⟨hp.settled, hp.pending⟩⟩, hp.reports⟩

end AnnotatedBlock

theorem Annotations.within_ofText (rules : AnnotationRules) (s : CommentSyntax) (file t : Text) :
    Yields (fun r => r.span.Within (lineCount t))
      (fun as => (∀ b ∈ as.blocks, b.Within (lineCount t)) ∧ ∀ d ∈ as.reports, d.location.Within (lineCount t))
      (ofText rules s file t) := by
  unfold ofText
  refine (Yields.mapM fun b hb => AnnotatedBlock.within_ofBlock (AnnotationBlock.within_scan s t b hb)).bind
    fun parsed hparsed => ⟨fun b hb => ?_, fun d hd => ?_⟩
  · obtain ⟨r, hr, rfl⟩ := List.mem_map.mp (List.mem_filter.mp hb).1
    exact (hparsed r hr).1
  · obtain ⟨r, hr, hd⟩ := List.mem_flatMap.mp hd
    exact (hparsed r hr).2 d hd

end AnnotationIndex
