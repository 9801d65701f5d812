import AnnotationIndex.Annotations.Parse
import Mathlib.Tactic.Common

/-!
Strict and permissive validation, run side by side. As long as nothing is wrong both runs are in the same state.
Where the strict run ends, the permissive one has just kept a mark of it, and a mark is never lost: so the strict
run has ended exactly if the permissive result is marked.
-/
namespace AnnotationIndex
open Text

/-- The results of two runs in the same state, `bad` telling whether it is marked: the second run goes on and keeps
a mark, and the first one, from a state without a mark, has the same result or has ended where the second one is
marked. -/
def Lockstep {ε α : Type} (bad : Prop) (F : α → Prop) (x y : Except ε α) : Prop :=
  ∃ a, y = .ok a ∧ (bad → F a) ∧ (¬bad → x = .ok a ∧ ¬F a ∨ (∃ e, x = .error e) ∧ F a)

namespace Lockstep
variable {ε α β : Type} {bad : Prop} {F : α → Prop} {G : β → Prop} {x y : Except ε α}

theorem same {a : α} (h : F a ↔ bad) : Lockstep bad F (.ok a : Except ε α) (.ok a) :=
  ⟨a, rfl, h.mpr, fun hb => .inl ⟨rfl, mt h.mp hb⟩⟩

theorem ended {a : α} (e : ε) (h : F a) : Lockstep bad F (.error e) (.ok a) :=
  ⟨a, rfl, fun _ => h, fun _ => .inr ⟨⟨e, rfl⟩, h⟩⟩

theorem bind {f f' : α → Except ε β} (h : Lockstep bad F x y) (hf : ∀ a, Lockstep (F a) G (f a) (f' a)) :
    Lockstep bad G (x >>= f) (y >>= f') := by
  obtain ⟨a, rfl, hkept, hsame⟩ := h
  obtain ⟨b, hb, hkept', hsame'⟩ := hf a
  refine ⟨b, hb, fun hbad => hkept' (hkept hbad), fun hbad => ?_⟩
  cases hsame hbad with
  | inl hx =>
    obtain ⟨rfl, ha⟩ := hx
    exact hsame' ha
  | inr hx =>
    obtain ⟨⟨e, rfl⟩, ha⟩ := hx
    exact .inr ⟨⟨e, rfl⟩, hkept' ha⟩

theorem map {g : α → β} (h : Lockstep bad F x y) (hg : ∀ a, G (g a) ↔ F a) : Lockstep bad G (x.map g) (y.map g) := by
  have hboth : Lockstep bad G (x >>= fun a => .ok (g a)) (y >>= fun a => .ok (g a)) := h.bind fun a => same (hg a)
  cases x <;> cases y <;> exact hboth

/-- Runs that start afresh do not lose an earlier mark. -/
theorem after (h : Lockstep False F x y) : Lockstep bad (fun a => bad ∨ F a) x y := by
  obtain ⟨a, hy, _, hsame⟩ := h
  refine ⟨a, hy, .inl, fun hbad => ?_⟩
  cases hsame id with
  | inl hx => exact .inl ⟨hx.1, fun ha => hx.2 (ha.resolve_left hbad)⟩
  | inr hx => exact .inr ⟨hx.1, .inr hx.2⟩

theorem foldlM {f f' : α → β → Except ε α} (h : ∀ a b, Lockstep (F a) F (f a b) (f' a b)) (a : α) (bs : List β) :
    Lockstep (F a) F (bs.foldlM f a) (bs.foldlM f' a) := by
  induction bs generalizing a with
  | nil => exact same Iff.rfl
  | cons b rest ih => exact (h a b).bind ih

theorem mapM {f f' : α → Except ε β} (h : ∀ a, Lockstep False G (f a) (f' a)) (as : List α) :
    Lockstep False (fun bs => ∃ b ∈ bs, G b) (as.mapM f) (as.mapM f') := by
  induction as with
  | nil => exact same (by simp)
  | cons a rest ih =>
    rw [List.mapM_cons, List.mapM_cons]
    exact (h a).bind fun b => ih.after.bind fun bs => same (by
      simp only [List.mem_cons, or_and_right, exists_or, exists_eq_left])

/-- The first run ends exactly if the second one is marked, and has the same result otherwise. -/
theorem result (h : Lockstep False F x y) :
    ∃ a, y = .ok a ∧ ((∃ e, x = .error e) ↔ F a) ∧ (¬F a → x = .ok a) := by
  obtain ⟨a, hy, _, hsame⟩ := h
  refine ⟨a, hy, ?_⟩
  cases hsame id with
  | inl hx =>
    obtain ⟨rfl, ha⟩ := hx
    exact ⟨⟨nofun, fun hF => absurd hF ha⟩, fun _ => rfl⟩
  | inr hx => exact ⟨⟨fun _ => hx.2, fun _ => hx.1⟩, fun ha => absurd hx.2 ha⟩

end Lockstep

section Marks

def Diagnostic.Marked (d : Diagnostic) : Prop :=
  d.kind = .annotationMalformed ∨ d.kind = .invalidProvenance ∧ ∃ f : ConfidenceFault, d.message = f.report

def Provenance.Draft.Marked (d : Draft) : Prop := ∃ r ∈ d.reports, r.Marked

def AnnotatedBlock.Progress.Marked (p : Progress) : Prop :=
  (∃ r ∈ p.reports, r.Marked) ∨ ∃ a ∈ p.settled ++ p.pending, a.autoGenerated = true

/-- Annotations in which permissive validation has let something pass: a malformed annotation or a confidence is
reported, or a directive has been filled in. -/
def Annotations.Marked (a : Annotations) : Prop :=
  (∃ d ∈ a.reports, d.Marked) ∨ ∃ b ∈ a.blocks, ∃ r ∈ b.annotations, r.autoGenerated = true

def AnnotationRules.strict (rules : AnnotationRules) : AnnotationRules := { rules with mode := .strict }

def AnnotationRules.permissive (rules : AnnotationRules) : AnnotationRules := { rules with mode := .permissive }

/-- What is said of a confidence starts like nothing else that is said of a provenance. -/
theorem ConfidenceFault.head?_report (f : ConfidenceFault) : f.report.head? = some (unit 'C') := by
  cases f <;> rfl

theorem Diagnostic.not_marked_ofLine {file : Text} {line : Int} {message : Text} (h : message.head? ≠ some (unit 'C')) :
    ¬(ofLine .invalidProvenance file line message).Marked := by
  rintro (hkind | ⟨_, f, rfl⟩)
  · exact absurd hkind nofun
  · exact h f.head?_report

end Marks

namespace Provenance
variable {file : Text} {d : Draft} {s : SourceLine}

theorem Draft.marked_report {line : Int} {message : Text} :
    (d.report file line message).Marked ↔ d.Marked ∨
    (Diagnostic.ofLine .invalidProvenance file line message).Marked := by
  simp only [Marked, report, List.mem_append, List.mem_singleton, or_and_right, exists_or, exists_eq_left]

/-- A source line marks a draft if its confidence is reported, which is where strict validation ends. -/
theorem Draft.lockstep_step (file : Text) (d : Draft) (s : SourceLine) :
    Lockstep d.Marked Marked (step .strict file d s) (step .permissive file d s) := by
  have hsaid : ∀ {d' : Draft} {message : Text}, (d'.Marked ↔ d.Marked) → message.head? ≠ some (unit 'C') →
      ((d'.report file s.line message).Marked ↔ d.Marked) := by
    intro d' message hd hm
    rw [marked_report, hd, or_iff_left (Diagnostic.not_marked_ofLine hm)]
  have hU : unit 'U' ≠ unit 'C' := by decide
  have hI : unit 'I' ≠ unit 'C' := by decide
  dsimp only [step]
  split
  · cases Origin.ofName? (s.parameters.headD []) with
    | some o => exact .same Iff.rfl
    | none => exact .same (hsaid Iff.rfl fun h => hU (Option.some.inj h))
  split
  · cases readConfidence (s.parameters.headD []) with
    | ok c => exact .same Iff.rfl
    | error f => exact .ended _ (marked_report.mpr (.inr (.inr ⟨rfl, f, rfl⟩)))
  split
  · split
    · exact .same Iff.rfl
    split
    · exact .same Iff.rfl
    split
    · exact .same Iff.rfl
    · exact .same (hsaid Iff.rfl fun h => hI (Option.some.inj h))
  split
  · split
    · exact .same Iff.rfl
    · exact .same Iff.rfl
  split
  · split
    · exact .same Iff.rfl
    · exact .same (hsaid Iff.rfl fun h => hI (Option.some.inj h))
  · exact .same Iff.rfl

theorem lockstep_ofGroup (threshold : Number) (file : Text) (group : List SourceLine) :
    Lockstep False (fun r => ∃ d ∈ r.2, d.Marked) (ofGroup .strict threshold file group)
      (ofGroup .permissive threshold file group) := by
  have hstart : ¬Draft.start.Marked := by
    rintro ⟨r, hr, _⟩
    exact absurd hr List.not_mem_nil
  have hfold := Lockstep.foldlM (Draft.lockstep_step file) Draft.start group
  rw [eq_false hstart] at hfold
  exact hfold.map fun _ => Iff.rfl

end Provenance

namespace AnnotatedBlock
variable {rules : AnnotationRules} {file : Text}

theorem lockstep_reject (rules : AnnotationRules) (file : Text) (span : LineSpan) (f : AnnotationFault) :
    Lockstep False Diagnostic.Marked (reject rules.strict file span f) (reject rules.permissive file span f) :=
  .ended _ (.inl rfl)

/-- An entry is malformed in both modes, or has an annotation; where its directive is missing strict validation
ends, and otherwise the annotation is filled in. -/
inductive Modes : Except AnnotationFault AnnotationRecord → Except AnnotationFault AnnotationRecord → Prop
  | malformed (f : AnnotationFault) : Modes (.error f) (.error f)
  | stated (a : AnnotationRecord) (h : a.autoGenerated = false) : Modes (.ok a) (.ok a)
  | filledIn (f : AnnotationFault) (a : AnnotationRecord) (h : a.autoGenerated = true) : Modes (.error f) (.ok a)

theorem modes_of_entry (rules : AnnotationRules) (e : Entry) :
    Modes (e |> annotation rules.strict) (e |> annotation rules.permissive) := by
  dsimp only [ annotation, AnnotationRules.strict, AnnotationRules.permissive]
  cases NamespaceRule.find? rules.custom e.directive.nameSpace with
  | none => exact .malformed _
  | some rule =>
    dsimp only
    cases rule.shape.read e.directive.parameters e.directive.value e.directive.directive with
    | error f => exact .malformed _
    | ok payload =>
      dsimp only
      cases hmissing : e.directive.directive.isEmpty && rule.requiresDirective with
      | true => exact .filledIn _ _ rfl
      | false => exact .stated _ rfl

namespace Progress

theorem marked_append {p : Progress} {more : List Diagnostic} :
    ({ p with reports := p.reports ++ more } : Progress).Marked ↔ p.Marked ∨ ∃ r ∈ more, r.Marked := by
  simp only [Marked, List.mem_append, or_and_right, exists_or]
  rw [or_right_comm]

/-- A provenance makes no annotation one that has been filled in. -/
theorem marked_provided {p : Progress} {provenance : Provenance} {reports : List Diagnostic} :
    (⟨p.settled ++ p.pending.map fun a => { a with provenance }, [], [], reports⟩ : Progress).Marked ↔
      ({ p with reports } : Progress).Marked := by
  simp only [Marked, List.append_nil, List.mem_append, List.mem_map, or_and_right, exists_or]
  simp

theorem marked_pending {p : Progress} {a : AnnotationRecord} :
    ({ p with pending := p.pending ++ [a] } : Progress).Marked ↔ p.Marked ∨ a.autoGenerated = true := by
  simp only [Marked, ← List.append_assoc, List.mem_append (t := [a]), List.mem_singleton, or_and_right, exists_or,
    exists_eq_left, or_assoc]

/-- A group of source lines marks nothing but by what is said of its confidence. -/
theorem lockstep_endGroup (rules : AnnotationRules) (file : Text) (p : Progress) :
    Lockstep p.Marked Marked (p.endGroup rules.strict file) (p.endGroup rules.permissive file) := by
  rw [endGroup, endGroup]
  cases hgroup : p.group with
  | nil => exact .same Iff.rfl
  | cons first rest =>
    dsimp only
    split
    · refine .same (marked_append.trans (or_iff_left ?_))
      rintro ⟨r, hr, hmarked⟩
      obtain rfl := List.mem_singleton.mp hr
      have hP : unit 'P' ≠ unit 'C' := by decide
      refine Diagnostic.not_marked_ofLine (fun h => ?_) hmarked
      exact hP (Option.some.inj h)
    obtain ⟨⟨provenance, reports⟩, hpermissive, -, hstrict⟩ :=
      Provenance.lockstep_ofGroup rules.threshold file (first :: rest)
    cases hstrict id with
    | inl hsame =>
      obtain ⟨hstrict, hr⟩ := hsame
      simp only [AnnotationRules.strict, AnnotationRules.permissive, hstrict, hpermissive]
      exact .same (marked_provided.trans (marked_append.trans (or_iff_left hr)))
    | inr hended =>
      obtain ⟨⟨e, hstrict⟩, hr⟩ := hended
      simp only [AnnotationRules.strict, AnnotationRules.permissive, hstrict, hpermissive]
      exact .ended _ (marked_provided.mpr (marked_append.mpr (.inr hr)))

theorem lockstep_step (rules : AnnotationRules) (file : Text) (p : Progress) (e : Entry) :
    Lockstep p.Marked Marked (p.step rules.strict file e) (p.step rules.permissive file e) := by
  rw [step, step]
  split
  · exact .same Iff.rfl
  refine (lockstep_endGroup rules file p).bind fun q => ?_
  have hmodes := modes_of_entry rules e
  generalize annotation rules.strict e = x, annotation rules.permissive e = y at hmodes
  cases hmodes with
  | malformed f => exact .ended _ (marked_append.mpr (.inr ⟨_, List.mem_singleton_self _, .inl rfl⟩))
  | stated a h => exact .same (marked_pending.trans (or_iff_left (by simp [h])))
  | filledIn f a h => exact .ended _ (marked_pending.mpr (.inr h))

end Progress

def Marked (b : AnnotatedBlock × List Diagnostic) : Prop :=
  (∃ r ∈ b.2, r.Marked) ∨ ∃ a ∈ b.1.annotations, a.autoGenerated = true

theorem lockstep_ofBlock (rules : AnnotationRules) (file : Text) (b : AnnotationBlock) :
    Lockstep False Marked (ofBlock rules.strict file b) (ofBlock rules.permissive file b) := by
  rw [ofBlock, ofBlock]
  refine (Lockstep.mapM (fun l => lockstep_reject rules file _ _) _).bind fun reports => ?_
  have hstart : (∃ r ∈ reports, r.Marked) ↔ (⟨[], [], [], reports⟩ : Progress).Marked := by simp [Progress.Marked]
  rw [hstart]
  refine (Lockstep.foldlM (Progress.lockstep_step rules file) _ _).bind fun p => ?_
  exact (Progress.lockstep_endGroup rules file p).bind fun q => .same Iff.rfl

end AnnotatedBlock

/-- Strict validation ends on a text exactly if permissive validation lets something pass, and otherwise has the same
annotations and reports. -/
theorem Annotations.lockstep_ofText (rules : AnnotationRules) (s : CommentSyntax) (file t : Text) :
    Lockstep False Marked (ofText rules.strict s file t) (ofText rules.permissive s file t) := by
  rw [ofText, ofText]
  refine (Lockstep.mapM (AnnotatedBlock.lockstep_ofBlock rules file) _).bind fun parsed => .same ?_
  have hreports : (∃ d ∈ parsed.flatMap (·.2), d.Marked) ↔ ∃ b ∈ parsed, ∃ d ∈ b.2, d.Marked := by
    simp only [List.mem_flatMap]
    exact ⟨fun ⟨d, ⟨b, hb, hd⟩, hm⟩ => ⟨b, hb, d, hd, hm⟩, fun ⟨b, hb, d, hd, hm⟩ => ⟨d, ⟨b, hb, hd⟩, hm⟩⟩
  have hblocks : (∃ b ∈ (parsed.map (·.1)).filter fun b => !b.annotations.isEmpty,
      ∃ a ∈ b.annotations, a.autoGenerated = true) ↔ ∃ b ∈ parsed, ∃ a ∈ b.1.annotations, a.autoGenerated = true := by
    constructor
    · rintro ⟨_, hb, hmarked⟩
      obtain ⟨b, hparsed, rfl⟩ := List.mem_map.mp (List.mem_filter.mp hb).1
      exact ⟨b, hparsed, hmarked⟩
    · rintro ⟨b, hb, a, ha, hmarked⟩
      refine ⟨b.1, List.mem_filter.mpr ⟨List.mem_map_of_mem hb, ?_⟩, a, ha, hmarked⟩
      simpa using List.ne_nil_of_mem ha
  simp only [Marked, AnnotatedBlock.Marked, hreports, hblocks, ← exists_or, ← and_or_left]

end AnnotationIndex
