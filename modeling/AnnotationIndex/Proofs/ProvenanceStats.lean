import AnnotationIndex.Proofs.Recorded

/-!
The statistics of provenance. They count every annotation that is stored once, under its origin and, if it needs
review, among those that do. These are listed in the order of files and lines, of which no two are equal, so that
the statistics say nothing about the order in which files and symbols are held.
-/
namespace AnnotationIndex
open Text

section Reviews

structure Provenance.Rated (threshold : Number) (p : Provenance) : Prop where
  needsReview : p.needsReview = reviewNeeded p.origin p.confidence p.reviewed threshold
  confidence : ∀ c ∈ p.confidence, c.Confidence

theorem Provenance.rated_ofGroup {mode : ValidationMode} {threshold : Number} {file : Text} {group : List SourceLine}
    {p : Provenance} {reports : List Diagnostic} (h : ofGroup mode threshold file group = .ok (p, reports)) :
    p.Rated threshold := by
  have hbound : ∀ s ∈ group, s.line.natAbs ≤ (group.map fun s => s.line.natAbs).sum :=
    fun s hs => List.single_le_sum (fun _ _ => Nat.zero_le _) _ (List.mem_map_of_mem hs)
  have hwithin := within_ofGroup mode threshold file hbound
  rw [h] at hwithin
  refine ⟨?_, hwithin.1⟩
  unfold ofGroup at h
  cases hfold : group.foldlM (Draft.step mode file) Draft.start with
  | error e => rw [hfold] at h; cases h
  | ok d =>
    rw [hfold] at h
    obtain ⟨rfl, -⟩ := Prod.mk.inj (Except.ok.inj h)
    rfl

theorem AnnotatedBlock.rated_of_stated {rules : AnnotationRules} {file : Text} {b : AnnotationBlock}
    {a : AnnotationRecord} (h : Stated rules file b a) : a.provenance.Rated rules.threshold := by
  cases h with
  | entry _ h =>
    obtain ⟨rule, payload, _, _, rfl⟩ := annotation_ok h
    exact ⟨rfl, fun c hc => absurd hc (by simp [Entry.stating, Provenance.byHand])⟩
  | group _ hp => exact Provenance.rated_ofGroup hp

theorem IndexedFile.rated_of_kept {rules : IndexRules} {path text : Text} {a : AnnotationRecord}
    (ha : a ∈ kept rules path text) : a.provenance.Rated rules.annotations.threshold := by
  obtain ⟨ab, hab, ha⟩ := block_of_kept ha
  obtain ⟨b, _, _, hstated⟩ := stated_blocksOf hab
  exact AnnotatedBlock.rated_of_stated (hstated a ha)

theorem Provenance.reviewNeeded_iff {origin : Origin} {confidence : Option Number} {reviewed : Bool}
    {threshold : Number} :
    reviewNeeded origin confidence reviewed threshold = true ↔
      origin ≠ .explicit ∧ reviewed = false ∧ ∀ c ∈ confidence, c.lt threshold = true := by
  cases reviewed <;> cases confidence <;> by_cases horigin : origin = .explicit <;> simp [reviewNeeded, horigin]

end Reviews

namespace LowConfidence

def Before (a b : LowConfidence) : Prop := lt a.file b.file = true ∨ a.file = b.file ∧ a.line < b.line

theorem le_iff {a b : LowConfidence} : LowConfidence.le a b = true ↔
    a.Before b ∨ a.file = b.file ∧ a.line = b.line ∧ Text.le a.nameSpace b.nameSpace = true := by
  rw [LowConfidence.le, Before, Text.lt, Text.le]
  cases hfile : Text.compare a.file b.file with
  | lt => simp
  | gt =>
    have hne : a.file ≠ b.file := fun heq => by rw [heq, compare_self] at hfile; cases hfile
    simp [hne]
  | eq =>
    have heq := eq_of_compare _ _ hfile
    cases hline : Ord.compare a.line b.line with
    | lt => simp [heq, Int.compare_eq_lt.mp hline]
    | gt =>
      have hlt := Int.compare_eq_gt.mp hline
      have hne : ¬ a.line < b.line ∧ a.line ≠ b.line := by omega
      simp [heq, hne]
    | eq => simp [heq, Int.compare_eq_eq.mp hline]

theorem Before.trans {a b c : LowConfidence} (hab : a.Before b) (hbc : b.Before c) : a.Before c := by
  rcases hab with hab | ⟨hab, hline⟩
  · refine .inl ?_
    rcases hbc with hbc | ⟨hbc, _⟩
    · rw [lt_iff] at hab hbc ⊢
      refine ⟨Text.le_trans _ _ _ hab.1 hbc.1, fun heq => hab.2 ?_⟩
      exact le_antisymm hab.1 (heq ▸ hbc.1)
    · exact hbc ▸ hab
  · rcases hbc with hbc | ⟨hbc, hline'⟩
    · exact .inl (hab ▸ hbc)
    · exact .inr ⟨hab.trans hbc, hline.trans hline'⟩

theorem before_total (a b : LowConfidence) : a.Before b ∨ b.Before a ∨ a.file = b.file ∧ a.line = b.line := by
  by_cases hfile : a.file = b.file
  · have hline := lt_trichotomy a.line b.line
    simp only [Before, hfile, true_and]
    tauto
  · have hle := Text.le_total a.file b.file
    rw [Bool.or_eq_true] at hle
    rcases hle with hle | hle
    · exact .inl (.inl (lt_iff.mpr ⟨hle, hfile⟩))
    · exact .inr (.inl (.inl (lt_iff.mpr ⟨hle, Ne.symm hfile⟩)))

theorem le_trans (a b c : LowConfidence) (hab : LowConfidence.le a b = true) (hbc : LowConfidence.le b c = true) :
    LowConfidence.le a c = true := by
  rw [le_iff] at *
  rcases hab with hab | ⟨hfile, hline, hname⟩ <;> rcases hbc with hbc | ⟨hfile', hline', hname'⟩
  · exact .inl (hab.trans hbc)
  · refine .inl ?_
    rwa [Before, ← hfile', ← hline']
  · refine .inl ?_
    rwa [Before, hfile, hline]
  · exact .inr ⟨hfile.trans hfile', hline.trans hline', Text.le_trans _ _ _ hname hname'⟩

theorem le_total (a b : LowConfidence) : (LowConfidence.le a b || LowConfidence.le b a) = true := by
  rw [Bool.or_eq_true, le_iff, le_iff]
  rcases before_total a b with h | h | ⟨hfile, hline⟩
  · exact .inl (.inl h)
  · exact .inr (.inl h)
  · have hname := Text.le_total a.nameSpace b.nameSpace
    rw [Bool.or_eq_true] at hname
    exact hname.imp (fun h => .inr ⟨hfile, hline, h⟩) fun h => .inr ⟨hfile.symm, hline.symm, h⟩

def place (e : LowConfidence) : Text × Int := (e.file, e.line)

/-- Entries at different places are in order exactly if one is before the other. -/
theorem before_of_le {a b : LowConfidence} (h : LowConfidence.le a b = true) (hne : a.place ≠ b.place) : a.Before b :=
  (le_iff.mp h).resolve_right fun heq => hne (Prod.ext heq.1 heq.2.1)

theorem place_eq_of_le {a b : LowConfidence} (hab : LowConfidence.le a b = true) (hba : LowConfidence.le b a = true) :
    a.place = b.place := by
  by_contra hne
  have hbefore := (before_of_le hab hne).trans (before_of_le hba (Ne.symm hne))
  rcases hbefore with h | h
  · exact (lt_iff.mp h).2 rfl
  · exact absurd h.2 (Int.lt_irrefl _)

end LowConfidence

namespace ProvenanceStats
variable {all all' : List (Text × AnnotationRecord)}

def place (e : Text × AnnotationRecord) : Text × Int := (e.1, e.2.lineSpan.start)

theorem lowConfidence_ofAnnotations (all : List (Text × AnnotationRecord)) : (ofAnnotations all).lowConfidence =
    ((all.filter fun e => e.2.provenance.needsReview).map fun e => LowConfidence.ofAnnotation e.1 e.2).mergeSort
      LowConfidence.le := rfl

/-- Every annotation has one origin. -/
theorem sum_byOrigin (all : List (Text × AnnotationRecord)) :
    (Origin.all.map (ofAnnotations all).byOrigin.count).sum = (all.length : Int) := by
  have hcount : ∀ o, (ofAnnotations all).byOrigin.count o = (all.countP fun e => e.2.provenance.origin = o : Nat) := by
    intro o
    rw [List.countP_eq_length_filter]
    cases o <;> rfl
  simp only [Origin.all, List.map_cons, List.map_nil, List.sum_cons, List.sum_nil, hcount]
  clear hcount
  induction all with
  | nil => rfl
  | cons e rest ih =>
    simp only [List.countP_cons, List.length_cons]
    cases e.2.provenance.origin <;> simp <;> omega

theorem nodup_places (h : (all.map place).Nodup) :
    ((ofAnnotations all).lowConfidence.map LowConfidence.place).Nodup := by
  have hperm := (List.mergeSort_perm ((all.filter fun e => e.2.provenance.needsReview).map fun e =>
    LowConfidence.ofAnnotation e.1 e.2) LowConfidence.le).map LowConfidence.place
  rw [lowConfidence_ofAnnotations, hperm.nodup_iff, List.map_map]
  exact (List.filter_sublist.map place).nodup h

/-- The annotations that need review are in the order of their places. -/
theorem pairwise_lowConfidence (h : (all.map place).Nodup) :
    (ofAnnotations all).lowConfidence.Pairwise LowConfidence.Before := by
  have hsorted := List.pairwise_mergeSort LowConfidence.le_trans LowConfidence.le_total
    ((all.filter fun e => e.2.provenance.needsReview).map fun e => LowConfidence.ofAnnotation e.1 e.2)
  rw [← lowConfidence_ofAnnotations] at hsorted
  exact hsorted.imp₂ (fun _ _ => LowConfidence.before_of_le) (List.pairwise_map.mp (nodup_places h))

/-- Annotations at different places may come in any order. -/
theorem ofAnnotations_perm (hp : all.Perm all') (h : (all.map place).Nodup) :
    ofAnnotations all = ofAnnotations all' := by
  have hlength (p : Text × AnnotationRecord → Bool) : (all.filter p).length = (all'.filter p).length :=
    (hp.filter p).length_eq
  have hlow : (ofAnnotations all).lowConfidence = (ofAnnotations all').lowConfidence := by
    have hperm := ((hp.filter fun e => e.2.provenance.needsReview).map fun e => LowConfidence.ofAnnotation e.1 e.2)
    refine List.Perm.eq_of_pairwise (fun a b ha hb hab hba => ?_)
      (List.pairwise_mergeSort LowConfidence.le_trans LowConfidence.le_total _)
      (List.pairwise_mergeSort LowConfidence.le_trans LowConfidence.le_total _)
      ((List.mergeSort_perm _ _).trans (hperm.trans (List.mergeSort_perm _ _).symm))
    have hb : b ∈ (ofAnnotations all).lowConfidence :=
      List.mem_mergeSort.mpr (hperm.symm.subset (List.mem_mergeSort.mp hb))
    exact List.inj_on_of_nodup_map (nodup_places h) ha hb (LowConfidence.place_eq_of_le hab hba)
  simp only [ofAnnotations, ProvenanceStats.mk.injEq, hlength, true_and]
  exact hlow

end ProvenanceStats

namespace ProjectIndex
open IndexedFile

def stored (r : ProjectIndex) : List AnnotationRecord :=
  (r.files.values.flatMap fun f => AnnotationMap.annotations f.annotations) ++
    r.symbols.values.flatMap fun s => AnnotationMap.annotations s.annotations

theorem stored_eq (r : ProjectIndex) : r.stored = (allAnnotations r.files r.symbols).map (·.2) := by
  simp only [stored, allAnnotations, List.map_append, List.map_flatMap, List.map_map, Function.comp_def, List.map_id']

/-- Statistics that count each annotation of an index once. -/
structure CountsStored (threshold : Number) (r : ProjectIndex) : Prop where
  origins : (Origin.all.map r.provenance.byOrigin.count).sum = r.stored.length
  pending : r.provenance.needsReview = r.provenance.lowConfidence.length ∧
    r.provenance.needsReview = r.stored.countP fun a => a.provenance.needsReview
  review : ∀ a ∈ r.stored,
    (a.provenance.needsReview = true ↔ a.provenance.origin ≠ .explicit ∧ a.provenance.reviewed = false ∧
      ∀ c ∈ a.provenance.confidence, c.lt threshold = true) ∧
    ∀ c ∈ a.provenance.confidence, c.Confidence
  ordered : r.provenance.lowConfidence.Pairwise LowConfidence.Before
  unordered : ∀ files symbols, files.Perm r.files → symbols.Perm r.symbols →
    ProvenanceStats.ofFiles files symbols = r.provenance

theorem allAnnotations_perm {files files' : Table FileRecord} {symbols symbols' : Table SymbolRecord}
    (hf : files.Perm files') (hs : symbols.Perm symbols') :
    (allAnnotations files symbols).Perm (allAnnotations files' symbols') :=
  ((hf.map _).flatMap_right _).append ((hs.map _).flatMap_right _)

/-- No two annotations of a project's index start at the same place. -/
theorem nodup_allAnnotations {rules : IndexRules} {files : List (Text × Text)} (hp : (files.map (·.1)).Nodup)
    {fs : List IndexedFile} (hfs : files.mapM (fun e => ofText rules e.1 e.2) = .ok fs) :
    ((allAnnotations (ofIndexed fs).files (ofIndexed fs).symbols).map ProvenanceStats.place).Nodup := by
  have hpaths : (fs.map (·.path)).Nodup := paths_of_mapM hfs ▸ hp
  have hplaces : ((fs.flatMap placed).map ProvenanceStats.place).Nodup := by
    rw [List.map_flatMap, List.nodup_flatMap]
    constructor
    · intro f hf
      obtain ⟨_, _, hok⟩ := exists_text_of_mapM hfs hf
      have hplaced :
          (placed f).map ProvenanceStats.place = (AnnotationRecord.starts f.stored).map fun n => (f.path, n) := by
        rw [placed, AnnotationRecord.starts, List.map_map, List.map_map]
        rfl
      rw [hplaced]
      exact (nodup_starts_stored hok).map fun _ _ h => (Prod.mk.inj h).2
    · refine (List.pairwise_map.mp hpaths).imp fun {f g} hne => ?_
      rw [Function.onFun, List.disjoint_left]
      intro place hf hg
      simp only [placed, List.map_map, List.mem_map] at hf hg
      obtain ⟨_, _, rfl⟩ := hf
      obtain ⟨_, _, heq⟩ := hg
      exact hne (Prod.mk.inj heq).1.symm
  obtain ⟨as, hperm, hsub⟩ := subperm_allAnnotations (owned_of_mapM hfs)
  exact (hperm.map _).nodup_iff.mp ((hsub.map _).nodup hplaces)

/-- The statistics of a project's index count each annotation that it stores once. -/
theorem countsStored_ofFiles (rules : IndexRules) (files : List (Text × Text)) (hp : (files.map (·.1)).Nodup)
    (r : ProjectIndex) (hr : ofFiles rules files = .ok r) : CountsStored rules.annotations.threshold r := by
  obtain ⟨fs, hfs, rfl⟩ := exists_indexed hr
  have hstats : (ofIndexed fs).provenance =
      .ofAnnotations (allAnnotations (ofIndexed fs).files (ofIndexed fs).symbols) := by
    rw [ofIndexed_eq]
    rfl
  have hplaces := nodup_allAnnotations hp hfs
  constructor
  case origins =>
    rw [hstats, ProvenanceStats.sum_byOrigin, stored_eq, List.length_map]
  case pending =>
    rw [hstats, stored_eq, List.countP_map, List.countP_eq_length_filter, ProvenanceStats.lowConfidence_ofAnnotations,
      List.length_mergeSort, List.length_map]
    exact ⟨rfl, rfl⟩
  case review =>
    intro a ha
    rw [stored_eq] at ha
    obtain ⟨e, he, rfl⟩ := List.mem_map.mp ha
    obtain ⟨f, hf, he⟩ := List.mem_flatMap.mp ((subperm_allAnnotations (owned_of_mapM hfs)).subset he)
    obtain ⟨a, hstored, rfl⟩ := List.mem_map.mp he
    obtain ⟨_, _, hok⟩ := exists_text_of_mapM hfs hf
    obtain ⟨hreview, hconfidence⟩ := rated_of_kept ((subperm_stored hok).subset hstored)
    exact ⟨hreview ▸ Provenance.reviewNeeded_iff, hconfidence⟩
  case ordered =>
    rw [hstats]
    exact ProvenanceStats.pairwise_lowConfidence hplaces
  case unordered =>
    intro files' symbols' hfiles hsymbols
    rw [hstats]
    exact (ProvenanceStats.ofAnnotations_perm (allAnnotations_perm hfiles hsymbols).symm hplaces).symm

def doubtfulFile : List (Text × Text) := [
  ("a.ts", "// @acp:fn adds\n// @acp:source heuristic\n// @acp:source-confidence 0.5\nfunction f() {}\n")]

theorem countsStored_doubtfulFile : ∃ r, ofFiles scriptRules doubtfulFile = .ok r ∧
    CountsStored scriptRules.annotations.threshold r ∧ r.stored.length = 1 ∧ r.provenance.needsReview = 1 := by
  have hfacts :
      let fs := indexAll scriptRules doubtfulFile
      let r := ofLinked (fs.map (relinked ⟨fs.map linkUnit⟩ fun _ => true))
      (doubtfulFile.mapM fun e => ofText scriptRules e.1 e.2).isOk = true ∧
        fs.Pairwise (fun f g => IndexedFile.le f g = true) ∧ r.stored.length = 1 ∧ r.provenance.needsReview = 1 := by
    decide +kernel
  obtain ⟨hok, hsorted, hheld⟩ := hfacts
  have hr := ofFiles_eq_of_sorted hok hsorted
  exact ⟨_, hr, countsStored_ofFiles scriptRules doubtfulFile (by decide) _ hr, hheld⟩

end ProjectIndex
end AnnotationIndex
