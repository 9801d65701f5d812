import AnnotationIndex.Proofs.AnnotationLines
import AnnotationIndex.Proofs.Lockstep

/-!
Provenance groups. The entries of a block fall into passages: directives and the run of source lines behind them.
Reading a block in permissive mode is reading its passages one by one. The annotations of a passage have the
provenance of its run, and a run behind directives of which none is accepted is reported as stray.
-/
namespace AnnotationIndex
open Text

def strayMessage : Text := "Provenance group does not follow any annotation"

namespace Diagnostic

/-- Whether a report is about source lines that no annotation waits for. -/
def isStray (d : Diagnostic) : Bool := d.kind = .invalidProvenance && d.message == strayMessage

def stray (file : Text) (line : Int) : Diagnostic := ofLine .invalidProvenance file line strayMessage

theorem isStray_stray (file : Text) (line : Int) : (stray file line).isStray = true := by
  simp [isStray, stray, ofLine, make]

theorem not_isStray_of_head? {d : Diagnostic} {u : UInt16} (h : d.message.head? = some u) (hu : u ≠ unit 'P') :
    d.isStray = false := by
  have hne : d.message ≠ strayMessage := by
    intro he
    rw [he] at h
    exact hu (Option.some.inj h).symm
  simp [isStray, hne]

end Diagnostic

namespace Provenance
variable {threshold : Number} {file : Text} {d : Draft}

def Draft.Placed (d : Draft) : Prop :=
  ∀ r ∈ d.reports, r.kind = .invalidProvenance ∧ r.isStray = false

theorem Draft.placed_report (h : d.Placed) (line : Int) {message : Text} {u : UInt16}
    (hmessage : message.head? = some u) (hu : u ≠ unit 'P') : (d.report file line message).Placed :=
  List.forall_mem_append.mpr ⟨h, fun _ hr => List.mem_singleton.mp hr ▸
    ⟨rfl, Diagnostic.not_isStray_of_head? hmessage hu⟩⟩

theorem Draft.placed_setConfidence (h : d.Placed) (s : SourceLine) (r : Except ConfidenceFault Number) :
    (d.setConfidence file s r).Placed := by
  cases r with
  | ok c => exact h
  | error f => exact placed_report (d := { d with confidence := f.replacement }) h s.line f.head?_report (by decide)

/-- In permissive mode no source line is refused. -/
theorem Draft.placed_step (h : d.Placed) (s : SourceLine) :
    Yields (fun _ => False) Placed (step .permissive file d s) := by
  unfold step
  dsimp only
  split
  · split
    · exact h
    · exact placed_report (d := { d with origin := .heuristic }) h s.line (u := unit 'U') rfl (by decide)
  split
  · exact placed_setConfidence h s _
  repeat' split
  all_goals
    first
    | exact h
    | exact placed_report h s.line (u := unit 'I') rfl (by decide)

theorem ofGroup_permissive (threshold : Number) (file : Text) (run : List SourceLine) :
    ∃ p reports, ofGroup .permissive threshold file run = .ok (p, reports) ∧
      ∀ r ∈ reports, r.kind = .invalidProvenance ∧ r.isStray = false := by
  have hdraft : Yields (fun _ => False) Draft.Placed (run.foldlM (Draft.step .permissive file) Draft.start) :=
    Yields.foldlM (fun s _ d hd => Draft.placed_step hd s) fun _ hr => absurd hr List.not_mem_nil
  unfold ofGroup
  cases hfold : run.foldlM (Draft.step .permissive file) Draft.start with
  | error e =>
    rw [hfold] at hdraft
    exact hdraft.elim
  | ok d =>
    rw [hfold] at hdraft
    exact ⟨_, _, rfl, hdraft⟩

def resolve (threshold : Number) (file : Text) (run : List SourceLine) : Provenance × List Diagnostic :=
  (ofGroup .permissive threshold file run).toOption.getD (byHand, [])

theorem ofGroup_eq_resolve (run : List SourceLine) :
    ofGroup .permissive threshold file run = .ok (resolve threshold file run) := by
  obtain ⟨p, reports, h, _⟩ := ofGroup_permissive threshold file run
  rw [resolve, h]
  rfl

theorem placed_resolve (run : List SourceLine) :
    ∀ r ∈ (resolve threshold file run).2, r.kind = .invalidProvenance ∧ r.isStray = false := by
  obtain ⟨p, reports, h, hreports⟩ := ofGroup_permissive threshold file run
  rw [resolve, h]
  exact hreports

theorem resolve_nil : resolve threshold file [] = (byHand, []) := rfl

end Provenance

namespace AnnotatedBlock

def Entry.isSource (e : Entry) : Bool := AnnotationRecord.isSource e.directive.nameSpace

structure Passage where
  directives : List Entry
  sources : List Entry

/-- Entries cut into passages. Only the first may be without directives and only the last without source lines, so
the runs are maximal. -/
structure Splits (es : List Entry) (gs : List Passage) : Prop where
  whole : gs.flatMap (fun g => g.directives ++ g.sources) = es
  directives : ∀ g ∈ gs, ∀ e ∈ g.directives, e.isSource = false
  sources : ∀ g ∈ gs, ∀ e ∈ g.sources, e.isSource = true
  apart : gs.IsChain fun g h => g.sources ≠ [] ∧ h.directives ≠ []

/-- One more entry in front starts a passage or joins the first one. -/
theorem exists_splits (es : List Entry) : ∃ gs, Splits es gs := by
  induction es with
  | nil => exact ⟨[], rfl, by simp, by simp, .nil⟩
  | cons e rest ih =>
    obtain ⟨gs, rfl, hdirectives, hsources, hapart⟩ := ih
    cases gs with
    | nil =>
      cases he : e.isSource with
      | false => exact ⟨[⟨[e], []⟩], rfl, by simpa using he, by simp, .singleton _⟩
      | true => exact ⟨[⟨[], [e]⟩], rfl, by simp, by simpa using he, .singleton _⟩
    | cons g gs =>
      obtain ⟨hd, hds⟩ := List.forall_mem_cons.mp hdirectives
      obtain ⟨hs, hss⟩ := List.forall_mem_cons.mp hsources
      have hfirst : ∀ h ∈ gs.head?, g.sources ≠ [] ∧ h.directives ≠ [] := (List.isChain_cons.mp hapart).1
      have hrest := (List.isChain_cons.mp hapart).2
      cases he : e.isSource with
      | false =>
        exact ⟨⟨e :: g.directives, g.sources⟩ :: gs, rfl,
          List.forall_mem_cons.mpr ⟨List.forall_mem_cons.mpr ⟨he, hd⟩, hds⟩, List.forall_mem_cons.mpr ⟨hs, hss⟩,
          List.isChain_cons.mpr ⟨hfirst, hrest⟩⟩
      | true =>
        cases hempty : g.directives with
        | nil =>
          refine ⟨⟨[], e :: g.sources⟩ :: gs, by simp [hempty], List.forall_mem_cons.mpr ⟨by simp, hds⟩,
            List.forall_mem_cons.mpr ⟨List.forall_mem_cons.mpr ⟨he, hs⟩, hss⟩,
            List.isChain_cons.mpr ⟨fun h hh => ?_, hrest⟩⟩
          exact ⟨List.cons_ne_nil _ _, (hfirst h hh).2⟩
        | cons d ds =>
          refine ⟨⟨[], [e]⟩ :: g :: gs, rfl, List.forall_mem_cons.mpr ⟨by simp, hdirectives⟩,
            List.forall_mem_cons.mpr ⟨by simpa using he, hsources⟩, List.isChain_cons_cons.mpr ⟨?_, hapart⟩⟩
          exact ⟨List.cons_ne_nil _ _, hempty ▸ List.cons_ne_nil _ _⟩

variable {rules : AnnotationRules} {file : Text}

def written (rules : AnnotationRules) (ds : List Entry) : List AnnotationRecord :=
  ds.filterMap fun e => (e |> annotation rules).toOption

def malformed (file : Text) (span : LineSpan) (fault : AnnotationFault) : Diagnostic :=
  Diagnostic.make .annotationMalformed ⟨file, some span.start, some span.stop⟩ fault.message none

def rejections (rules : AnnotationRules) (file : Text) (ds : List Entry) : List Diagnostic :=
  ds.filterMap fun e =>
    match annotation rules e with
    | .ok _ => none
    | .error f => some (malformed file e.span f)

namespace Passage
variable {g : Passage}

def run (g : Passage) : List SourceLine := g.sources.map (·.sourceLine)

def records (rules : AnnotationRules) (file : Text) (g : Passage) : List AnnotationRecord :=
  (written rules g.directives).map fun a => { a with provenance := (Provenance.resolve rules.threshold file g.run).1 }

def runReports (rules : AnnotationRules) (file : Text) (g : Passage) : List Diagnostic :=
  match g.run with
  | [] => []
  | first :: _ =>
    if (written rules g.directives).isEmpty then [Diagnostic.stray file first.line]
    else (Provenance.resolve rules.threshold file g.run).2

def reports (rules : AnnotationRules) (file : Text) (g : Passage) : List Diagnostic :=
  rejections rules file g.directives ++ g.runReports rules file

end Passage

theorem byHand_of_annotation {e : Entry} {a : AnnotationRecord} (h : annotation rules e = .ok a) :
    a.provenance = Provenance.byHand := by
  obtain ⟨rule, payload, _, _, rfl⟩ := annotation_ok h
  rfl

/-- Without a run the annotations stay as they are written. -/
theorem Passage.records_of_run_nil {g : Passage} (h : g.run = []) :
    g.records rules file = written rules g.directives := by
  rw [records, h, Provenance.resolve_nil, written, List.map_filterMap]
  refine List.filterMap_congr fun e _ => ?_
  cases ha : annotation rules e with
  | error f => rfl
  | ok a =>
    rw [Except.toOption, Option.map_some, ← byHand_of_annotation ha]

namespace Progress
variable {p q : Progress} {g : Passage} {gs : List Passage}

theorem foldlM_sources {es : List Entry} (h : ∀ e ∈ es, e.isSource = true) (p : Progress) :
    es.foldlM (step rules file) p = .ok { p with group := p.group ++ es.map (·.sourceLine) } := by
  induction es generalizing p with
  | nil => simp [pure, Except.pure]
  | cons e rest ih =>
    obtain ⟨he, hrest⟩ := List.forall_mem_cons.mp h
    have hstep : p.step rules file e = .ok { p with group := p.group ++ [e.sourceLine] } := if_pos he
    have hnext := ih hrest { p with group := p.group ++ [e.sourceLine] }
    rw [List.foldlM_cons, hstep]
    simpa [bind, Except.bind] using hnext

theorem foldlM_directives (hmode : rules.mode = .permissive) {es : List Entry} (h : ∀ e ∈ es, e.isSource = false)
    (hgroup : p.group = []) : es.foldlM (step rules file) p = .ok { p with
      pending := p.pending ++ written rules es
      reports := p.reports ++ rejections rules file es } := by
  induction es generalizing p with
  | nil => simp [written, rejections, pure, Except.pure]
  | cons e rest ih =>
    obtain ⟨he, hrest⟩ := List.forall_mem_cons.mp h
    have hopen : p.endGroup rules file = .ok p := by rw [endGroup, hgroup]
    rw [List.foldlM_cons, step, if_neg (by simpa [Entry.isSource] using he), hopen]
    cases ha : annotation rules e with
    | ok a =>
      have hnext := ih hrest (p := { p with pending := p.pending ++ [a] }) hgroup
      simpa [ha, written, rejections, Except.toOption, bind, Except.bind] using hnext
    | error f =>
      have hnext := ih hrest (p := { p with reports := p.reports ++ [malformed file e.span f] }) hgroup
      simpa [ha, hmode, reject, malformed, written, rejections, Except.toOption, bind, Except.bind] using hnext

def through (rules : AnnotationRules) (file : Text) (p : Progress) (g : Passage) : Progress :=
  ⟨p.settled, written rules g.directives, g.run, p.reports ++ rejections rules file g.directives⟩

theorem foldlM_passage (hmode : rules.mode = .permissive) (hd : ∀ e ∈ g.directives, e.isSource = false)
    (hs : ∀ e ∈ g.sources, e.isSource = true) (hgroup : p.group = []) (hpending : p.pending = []) :
    (g.directives ++ g.sources).foldlM (step rules file) p = .ok (p.through rules file g) := by
  rw [List.foldlM_append, foldlM_directives hmode hd hgroup, hpending, hgroup]
  exact foldlM_sources hs _

/-- The end of a group settles the annotations of its passage. -/
theorem endGroup_through (hmode : rules.mode = .permissive) (file : Text) (p : Progress) (g : Passage) :
    ∃ q, (p.through rules file g).endGroup rules file = .ok q ∧
      q.settled ++ q.pending = p.settled ++ g.records rules file ∧ q.reports = p.reports ++ g.reports rules file ∧
      q.group = [] ∧ (g.sources ≠ [] → q.pending = []) := by
  unfold endGroup
  split
  · next hrun =>
    have hrun : g.run = [] := hrun
    have hsources : g.sources = [] := List.map_eq_nil_iff.mp hrun
    refine ⟨_, rfl, ?_, ?_, hrun, fun hne => absurd hsources hne⟩
    · rw [g.records_of_run_nil hrun, through]
    · rw [Passage.reports, Passage.runReports, hrun, List.append_nil, through]
  · next first more hrun =>
    have hrun : g.run = first :: more := hrun
    split
    · next hempty =>
      have hwritten : written rules g.directives = [] := List.isEmpty_iff.mp hempty
      refine ⟨_, rfl, ?_, ?_, rfl, fun _ => hwritten⟩
      · rw [Passage.records, hwritten, List.map_nil, through, hwritten]
      · rw [Passage.reports, Passage.runReports, hrun, hwritten, through, List.append_assoc]
        rfl
    · next hfull =>
      have hfull : ¬(written rules g.directives).isEmpty = true := hfull
      rw [through, hmode, Provenance.ofGroup_eq_resolve]
      cases hresolve : Provenance.resolve rules.threshold file g.run with
      | mk provenance reports =>
        refine ⟨_, rfl, ?_, ?_, rfl, fun _ => rfl⟩
        · rw [List.append_nil, Passage.records, hresolve]
        · rw [Passage.reports, Passage.runReports, hresolve, hrun, List.append_assoc]
          dsimp only
          rw [if_neg hfull]

/-- A directive ends the open group before it is read. -/
theorem foldlM_of_endGroup (h : p.endGroup rules file = .ok q) (hq : q.group = []) {e : Entry} (he : e.isSource = false)
    (es : List Entry) : (e :: es).foldlM (step rules file) p = (e :: es).foldlM (step rules file) q := by
  have hclosed : q.endGroup rules file = .ok q := by rw [endGroup, hq]
  have hne : ¬AnnotationRecord.isSource e.directive.nameSpace = true := by simpa [Entry.isSource] using he
  rw [List.foldlM_cons, List.foldlM_cons, step, step, if_neg hne, if_neg hne, h, hclosed]

/-- Passages are read one by one. Since each but the first has directives and each but the last a run, a group is
ended where its passage ends. -/
theorem read_passages (hmode : rules.mode = .permissive) (file : Text) {es : List Entry} (h : Splits es gs)
    (hgroup : p.group = []) (hpending : p.pending = []) :
    ∃ q, (es.foldlM (step rules file) p >>= endGroup rules file) = .ok q ∧
      q.settled ++ q.pending = p.settled ++ gs.flatMap (·.records rules file) ∧
      q.reports = p.reports ++ gs.flatMap (·.reports rules file) := by
  obtain ⟨rfl, hdirectives, hsources, hapart⟩ := h
  induction gs generalizing p with
  | nil => exact ⟨p, by simp [endGroup, hgroup, bind, Except.bind, pure, Except.pure], by simp [hpending], by simp⟩
  | cons g rest ih =>
    obtain ⟨hd, hds⟩ := List.forall_mem_cons.mp hdirectives
    obtain ⟨hs, hss⟩ := List.forall_mem_cons.mp hsources
    obtain ⟨q, hq, hrecords, hreports, hclosed, hsettled⟩ := endGroup_through hmode file p g
    rw [List.flatMap_cons, List.foldlM_append, foldlM_passage hmode hd hs hgroup hpending]
    cases rest with
    | nil => exact ⟨q, hq, by simpa using hrecords, by simpa using hreports⟩
    | cons g' rest =>
      -- The group of this passage is still open here; the first directive of the next one ends it.
      obtain ⟨hgap, hrest⟩ := List.isChain_cons_cons.mp hapart
      obtain ⟨e, ds, hfirst⟩ := List.exists_cons_of_ne_nil hgap.2
      have he : e.isSource = false := hds g' List.mem_cons_self e (hfirst ▸ List.mem_cons_self)
      obtain ⟨q', hq', hrecords', hreports'⟩ := ih hclosed (hsettled hgap.1) hds hss hrest
      refine ⟨q', ?_, ?_, ?_⟩
      · rw [← hq', List.flatMap_cons, hfirst, List.cons_append, List.cons_append]
        exact congrArg (· >>= endGroup rules file) (foldlM_of_endGroup hq hclosed he _)
      · have hsettled : q.settled = p.settled ++ g.records rules file := by simpa [hsettled hgap.1] using hrecords
        rw [hrecords', hsettled, List.append_assoc, ← List.flatMap_cons]
      · rw [hreports', hreports, List.append_assoc, ← List.flatMap_cons]

end Progress

/-- A block in permissive mode: its malformed headers and its passages, one by one. -/
theorem ofBlock_passages (hmode : rules.mode = .permissive) (file : Text) {b : AnnotationBlock} {gs : List Passage}
    (h : Splits (entries b).1 gs) : ofBlock rules file b = .ok
      (⟨⟨b.first.line, b.last.line⟩, gs.flatMap (·.records rules file)⟩,
        (entries b).2.map (fun l => malformed file (.single l.line) (.header l.body)) ++
          gs.flatMap (·.reports rules file)) := by
  have hreject : (fun l : BlockLine => reject rules file (.single l.line) (.header l.body)) =
      fun l => pure (malformed file (.single l.line) (.header l.body)) := by
    funext l
    rw [reject, hmode]
    rfl
  obtain ⟨q, hq, hrecords, hreports⟩ := Progress.read_passages hmode file h
    (p := ⟨[], [], [], (entries b).2.map fun l => malformed file (.single l.line) (.header l.body)⟩) rfl rfl
  have hread : ofBlock rules file b = (do
      let reports ← (entries b).2.mapM fun l => reject rules file (.single l.line) (.header l.body)
      let p ← (entries b).1.foldlM (Progress.step rules file) ⟨[], [], [], reports⟩ >>= Progress.endGroup rules file
      .ok (⟨⟨b.first.line, b.last.line⟩, p.settled ++ p.pending⟩, p.reports)) := by
    simp only [bind_assoc]
    rfl
  rw [hread, hreject, List.mapM_pure, pure_bind, hq, ← hreports]
  exact congrArg (fun as => Except.ok (AnnotatedBlock.mk _ as, q.reports)) hrecords

/-- The provenance that a run gives to the annotations before it. -/
inductive Governs (threshold : Number) (file : Text) : List SourceLine → Provenance → Prop where
  | byHand : Governs threshold file [] Provenance.byHand
  | group {first : SourceLine} {more : List SourceLine} {p : Provenance} {reports : List Diagnostic}
      (h : Provenance.ofGroup .permissive threshold file (first :: more) = .ok (p, reports)) :
      Governs threshold file (first :: more) p

theorem governs_resolve (threshold : Number) (file : Text) (run : List SourceLine) :
    Governs threshold file run (Provenance.resolve threshold file run).1 := by
  cases run with
  | nil => exact .byHand
  | cons first more => exact .group (Provenance.ofGroup_eq_resolve _)

theorem isStray_malformed (file : Text) (span : LineSpan) (fault : AnnotationFault) :
    (malformed file span fault).isStray = false := by
  simp [Diagnostic.isStray, malformed, Diagnostic.make]

theorem mem_rejections {ds : List Entry} {d : Diagnostic} :
    d ∈ rejections rules file ds ↔ ∃ e ∈ ds, ∃ f, annotation rules e = .error f ∧ d = malformed file e.span f := by
  simp only [rejections, List.mem_filterMap]
  refine exists_congr fun e => and_congr_right fun _ => ?_
  cases annotation rules e with
  | ok a => simp
  | error f => simp [eq_comm]

namespace Passage

def isStray (rules : AnnotationRules) (g : Passage) : Bool := (written rules g.directives).isEmpty && !g.sources.isEmpty

/-- A passage has a report of a stray run if and only if its run is one. -/
theorem filter_reports (rules : AnnotationRules) (file : Text) (g : Passage) :
    if g.isStray rules then
      ∃ d, (g.reports rules file).filter (·.isStray) = [d] ∧ ∃ e ∈ g.sources.head?, d = .stray file e.line
    else (g.reports rules file).filter (·.isStray) = [] := by
  have hrejections : (rejections rules file g.directives).filter (·.isStray) = [] := by
    refine List.filter_eq_nil_iff.mpr fun d hd => ?_
    obtain ⟨e, _, f, _, rfl⟩ := mem_rejections.mp hd
    simp [isStray_malformed]
  have hresolve : (Provenance.resolve rules.threshold file g.run).2.filter (·.isStray) = [] :=
    List.filter_eq_nil_iff.mpr fun d hd => by simp [(Provenance.placed_resolve _ d hd).2]
  rw [reports, List.filter_append, hrejections, List.nil_append]
  cases hsources : g.sources with
  | nil =>
    have hrun : g.run = [] := by rw [run, hsources, List.map_nil]
    simp [isStray, hsources, runReports, hrun]
  | cons e rest =>
    have hrun : g.run = e.sourceLine :: rest.map (·.sourceLine) := by rw [run, hsources, List.map_cons]
    cases hempty : (written rules g.directives).isEmpty with
    | true =>
      have hstray : g.isStray rules = true := by simp [isStray, hempty, hsources]
      rw [if_pos hstray]
      refine ⟨.stray file e.line, ?_, e, rfl, rfl⟩
      simp [runReports, hrun, hempty, Entry.sourceLine, Diagnostic.isStray_stray]
    | false =>
      rw [hrun] at hresolve
      simpa [isStray, hempty, runReports, hrun] using hresolve

end Passage

/-- A block in permissive mode. Its entries fall into passages, each directives and the longest run of source lines
behind them. An accepted directive's annotation has the provenance of the run of its passage, whatever stands in
other passages. Each run that follows no accepted directive of its passage is reported once, as stray. -/
theorem governed_ofBlock (threshold : Number) (custom : List Text) (file : Text) (b : AnnotationBlock) :
    ∃ gs, Splits (entries b).1 gs ∧ ∃ ab reports, ofBlock ⟨.permissive, threshold, custom⟩ file b = .ok (ab, reports) ∧
      List.Forall₂ (fun w a => ∃ p, Governs threshold file w.2 p ∧ a = { w.1 with provenance := p })
        (gs.flatMap fun g => (written ⟨.permissive, threshold, custom⟩ g.directives).map fun a => (a, g.run))
        ab.annotations ∧
      List.Forall₂ (fun g d => ∃ e ∈ g.sources.head?, d = .stray file e.line)
        (gs.filter (·.isStray ⟨.permissive, threshold, custom⟩)) (reports.filter (·.isStray)) := by
  obtain ⟨gs, hgs⟩ := exists_splits (entries b).1
  refine ⟨gs, hgs, _, _, ofBlock_passages rfl file hgs, ?_, ?_⟩
  · have hrecords : gs.flatMap (·.records ⟨.permissive, threshold, custom⟩ file) =
        (gs.flatMap fun g => (written ⟨.permissive, threshold, custom⟩ g.directives).map fun a => (a, g.run)).map
          fun w => { w.1 with provenance := (Provenance.resolve threshold file w.2).1 } := by
      rw [List.map_flatMap]
      simp only [List.map_map]
      rfl
    rw [hrecords, List.forall₂_map_right_iff, List.forall₂_same]
    exact fun w _ => ⟨_, governs_resolve threshold file w.2, rfl⟩
  · have hheaders :
        ((entries b).2.map fun l => malformed file (.single l.line) (.header l.body)).filter (·.isStray) = [] := by
      refine List.filter_eq_nil_iff.mpr fun d hd => ?_
      obtain ⟨l, _, rfl⟩ := List.mem_map.mp hd
      simp [isStray_malformed]
    rw [List.filter_append, hheaders, List.nil_append, List.filter_flatMap]
    exact forall₂_filter_flatMap fun g _ => Passage.filter_reports _ file g

end AnnotatedBlock
end AnnotationIndex
