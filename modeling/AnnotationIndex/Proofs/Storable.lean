import AnnotationIndex.Proofs.AnnotationLines

/-!
What the index of a file records can be held by a document: its line numbers are numbers of the file's lines, its
confidences are confidences, and no map of annotations has the name that no table has.
-/
namespace AnnotationIndex
open Text

def lineLimit : Nat := 2 ^ 53

section Bounds
variable {k : Nat} (hk : k ≤ lineLimit)
include hk

theorem holds_line {n : Int} (h : n.natAbs ≤ k) : Number.Holds n := Number.holds_of_natAbs_le (h.trans hk)

theorem LineSpan.Within.storable {s : LineSpan} (h : s.Within k) : s.Storable := ⟨holds_line hk h.1, holds_line hk h.2⟩

theorem Location.Within.storable {l : Location} (h : l.Within k) : l.Storable :=
  ⟨fun n hn => holds_line hk (h.line n hn), fun n hn => holds_line hk (h.endLine n hn)⟩

theorem AnnotationRecord.Within.storable {a : AnnotationRecord} (h : a.Within k) : a.Storable :=
  ⟨h.lineSpan.storable hk, h.confidence⟩

end Bounds

theorem Location.storable_file (file : Text) : Location.Storable ⟨file, none, none⟩ :=
  (Location.within_file 0 file).storable (Nat.zero_le _)

theorem Location.storable_span {file : Text} {s : LineSpan} (h : s.Storable) :
    Location.Storable ⟨file, some s.start, some s.stop⟩ :=
  ⟨fun _ hn => Option.some.inj hn ▸ h.start, fun _ hn => Option.some.inj hn ▸ h.stop⟩

section Outlines

structure Outline.Storable (o : Outline) : Prop where
  lineCount : Number.Holds o.lineCount
  declarations : ∀ d ∈ o.declarations, d.lineSpan.Storable
  imports : ∀ s ∈ o.imports, Number.Holds s.line
  calls : ∀ c ∈ o.calls, Number.Holds c.line

theorem Outline.Within.storable {k : Nat} {o : Outline} (h : o.Within k) (hk : k ≤ lineLimit) : o.Storable where
  lineCount := holds_line hk h.lineCount
  declarations d hd := (h.declarations d hd).storable hk
  imports s hs := holds_line hk (h.imports s hs)
  calls c hc := holds_line hk (h.calls c hc)

def Extractor.Exact (e : Extractor) : Prop :=
  ∀ path text o, text.length < lineLimit → e.outline path text = .ok o → o.Storable

theorem Extractor.exact_builtIn : ∀ e ∈ builtIn, e.Exact :=
  fun _ he _ _ _ hsize h => (within_builtIn he h).storable hsize

end Outlines

section Maps

theorem Table.keyed_nil {α : Type} : Table.Keyed ([] : Table α) := ⟨List.nodup_nil, List.not_mem_nil⟩

theorem Table.Keyed.put {α : Type} {t : Table α} (h : t.Keyed) (key : Text) (value : α) :
    (Table.put t key value).Keyed :=
  ⟨nodup_put h.nodup, droppedKey_not_mem_put h.kept⟩

theorem Table.keyed_gather {α : Type} (entries : List (Text × α)) : (Table.gather entries).Keyed := by
  unfold gather
  suffices h : ∀ t : Table α, t.Keyed → (entries.foldl (fun t e => Table.put t e.1 e.2) t).Keyed from h [] keyed_nil
  induction entries with
  | nil => exact fun _ h => h
  | cons e rest ih => exact fun t h => ih _ (h.put e.1 e.2)

namespace AnnotationMap
variable {m : AnnotationMap} {n : Text}

theorem mem_annotations_of_mem_ofNamespace {a : AnnotationRecord} (h : a ∈ ofNamespace m n) : a ∈ annotations m := by
  unfold ofNamespace at h
  cases hget : Table.get? m n with
  | none =>
    rw [hget] at h
    exact absurd h List.not_mem_nil
  | some as =>
    rw [hget] at h
    exact List.mem_flatMap.mpr ⟨_, Table.mem_of_get? hget, h⟩

theorem mem_annotations_put {key : Text} {as : List AnnotationRecord} {a : AnnotationRecord}
    (h : a ∈ annotations (Table.put m key as)) : a ∈ annotations m ∨ a ∈ as := by
  obtain ⟨e, he, ha⟩ := List.mem_flatMap.mp h
  cases Table.mem_of_put he with
  | inl he =>
    obtain rfl := he
    exact .inr ha
  | inr he => exact .inl (List.mem_flatMap.mpr ⟨e, he, ha⟩)

/-- Adding an annotation puts it alone under its namespace, or after those that stand there. -/
theorem put_of_add {m' : AnnotationMap} {a : AnnotationRecord} (h : add m a = .ok m') :
    ∃ as, m' = Table.put m a.nameSpace as ∧
      (as = [a] ∨ ∃ old, Table.get? m a.nameSpace = some old ∧ as = old ++ [a]) := by
  unfold add at h
  dsimp only at h
  split at h
  · next old hold =>
    refine ⟨_, (Except.ok.inj h).symm, ?_⟩
    split
    · exact .inr ⟨old, hold, rfl⟩
    · exact .inl rfl
  · split at h
    · exact absurd h (by simp)
    · exact ⟨_, (Except.ok.inj h).symm, .inl rfl⟩

theorem keyed_add {m' : AnnotationMap} {a : AnnotationRecord} (hm : Table.Keyed m) (h : add m a = .ok m') :
    Table.Keyed m' := by
  obtain ⟨as, rfl, _⟩ := put_of_add h
  exact hm.put _ _

theorem storable_add {m' : AnnotationMap} (hm : m.Storable) {a : AnnotationRecord} (ha : a.Storable)
    (h : add m a = .ok m') : m'.Storable := by
  refine ⟨keyed_add hm.keyed h, fun a' ha' => ?_⟩
  obtain ⟨as, rfl, has⟩ := put_of_add h
  cases mem_annotations_put ha' with
  | inl ha' => exact hm.records a' ha'
  | inr ha' =>
    rcases has with rfl | ⟨old, hold, rfl⟩
    · exact List.mem_singleton.mp ha' ▸ ha
    · cases List.mem_append.mp ha' with
      | inl ha' => exact hm.records a' (List.mem_flatMap.mpr ⟨_, Table.mem_of_get? hold, ha'⟩)
      | inr ha' => exact List.mem_singleton.mp ha' ▸ ha

theorem storable_ofRecords {as : List AnnotationRecord} (has : ∀ a ∈ as, a.Storable) (h : ofRecords as = .ok m) :
    m.Storable := by
  have hstep : ∀ a ∈ AnnotationRecord.inLineOrder as, ∀ m, AnnotationMap.Storable m →
      Yields (fun _ => True) AnnotationMap.Storable (add m a) := by
    intro a ha m hm
    cases hadd : add m a with
    | error => exact trivial
    | ok m' => exact storable_add hm (has a (List.mem_mergeSort.mp ha)) hadd
  have hfold := Yields.foldlM hstep (b := []) ⟨Table.keyed_nil, fun _ ha => absurd ha List.not_mem_nil⟩
  rw [← ofRecords, h] at hfold
  exact hfold

end AnnotationMap

namespace Constraint
variable {as : List AnnotationRecord} (has : ∀ a ∈ as, a.Storable)
include has

theorem storable_own? : ∀ c ∈ own? as, c.Storable := by
  intro c hc
  obtain ⟨_, _, rfl⟩ := Option.map_eq_some_iff.mp hc
  exact fun a ha => has a (List.mem_mergeSort.mp (List.mem_filter.mp ha).1)

theorem storable_ofFile : (ofFile as).Storable := by
  unfold ofFile
  cases hown : own? as with
  | none => exact fun a ha => has a (List.mem_mergeSort.mp (List.mem_filter.mp ha).1)
  | some c => exact storable_own? has c hown

end Constraint
end Maps

section Files
variable {rules : IndexRules} {path text : Text}

structure AnnotatedBlock.Storable (b : AnnotatedBlock) : Prop where
  lineSpan : b.lineSpan.Storable
  annotations : ∀ a ∈ b.annotations, a.Storable

namespace Association
variable {blocks : List AnnotatedBlock} {ds : List Declaration} {kinds : List LineKind}

/-- The reports of an association are about its blocks. -/
theorem storable_reports (hb : ∀ b ∈ blocks, b.Storable) :
    ∀ d ∈ (ofBlocks path blocks ds kinds).reports, d.location.Storable := by
  intro d hd
  simp only [ofBlocks, List.mem_flatMap, List.mem_map (f := share _ _ _)] at hd
  obtain ⟨_, ⟨b, hmem, rfl⟩, hd⟩ := hd
  have hspan := (hb _ (block_of_placed (List.fst_mem_of_mem_zipIdx hmem))).lineSpan
  unfold share at hd
  split at hd
  · exact absurd hd List.not_mem_nil
  · exact absurd hd List.not_mem_nil
  · split at hd
    · split at hd
      · exact absurd hd List.not_mem_nil
      · exact List.mem_singleton.mp hd ▸ Location.storable_span hspan
    · exact absurd hd List.not_mem_nil

end Association

namespace IndexedFile

theorem lineCount_le_limit (hsize : text.length < lineLimit) : lineCount text ≤ lineLimit :=
  (lineCount_le text).trans hsize

theorem storable_outlineOf (he : ∀ e ∈ rules.extractors, e.Exact) (path : Text) (hsize : text.length < lineLimit) :
    (outlineOf rules path text).1.Storable ∧ ∀ d ∈ (outlineOf rules path text).2, d.location.Storable := by
  have hlines : (Outline.ofLines text).Storable :=
    (Outline.within_ofLines text).storable (lineCount_le_limit hsize)
  have hreport (kind : DiagnosticKind) (message : Text) :
      ∀ d ∈ [Diagnostic.ofFile kind path message], d.location.Storable := fun _ hd =>
    List.mem_singleton.mp hd ▸ Location.storable_file path
  unfold outlineOf
  split
  · exact ⟨hlines, hreport _ _⟩
  · next e hfile =>
    have hmem : e ∈ rules.extractors := List.mem_reverse.mp (List.mem_of_find?_eq_some hfile)
    split
    · next o ho => exact ⟨he e hmem path text o hsize ho, fun _ hd => absurd hd List.not_mem_nil⟩
    · exact ⟨hlines, hreport _ _⟩

theorem storable_blocksOf (rules : IndexRules) (path : Text) (hsize : text.length < lineLimit) :
    (∀ b ∈ (blocksOf rules path text).1, b.Storable) ∧ ∀ d ∈ (blocksOf rules path text).2, d.location.Storable := by
  have hk := lineCount_le_limit hsize
  have hwithin := Annotations.within_ofText rules.annotations (commentSyntax rules path) path text
  unfold blocksOf
  cases hr : Annotations.ofText rules.annotations (commentSyntax rules path) path text with
  | ok as =>
    rw [hr] at hwithin
    exact ⟨fun b hb => ⟨(hwithin.1 b hb).lineSpan.storable hk,
      fun a ha => ((hwithin.1 b hb).annotations a ha).storable hk⟩, fun d hd => (hwithin.2 d hd).storable hk⟩
  | error r =>
    rw [hr] at hwithin
    exact ⟨fun _ hb => absurd hb List.not_mem_nil, fun d hd =>
      List.mem_singleton.mp hd ▸ Location.storable_span (LineSpan.Within.storable hk hwithin)⟩

end IndexedFile

theorem SymbolRecord.storable_ofDeclaration {d : Declaration} {q : Text} {records : List AnnotationRecord}
    {s : SymbolRecord} (hd : d.lineSpan.Storable) (hr : ∀ a ∈ records, a.Storable)
    (h : ofDeclaration path d q records = .ok s) : s.Storable := by
  obtain ⟨m, hm, rfl⟩ := eq_of_ofDeclaration h
  exact ⟨hd, Constraint.storable_own? hr, AnnotationMap.storable_ofRecords hr hm⟩

theorem holds_inlineMarkers {names : List Text} {inline : List InlineRecord} (h : ∀ i ∈ inline, i.record.Storable) :
    ∀ m ∈ IndexedFile.inlineMarkers names inline, Number.Holds m.line := by
  intro m hm
  rw [IndexedFile.inlineMarkers, List.mem_mergeSort] at hm
  obtain ⟨i, hi, rfl⟩ := List.mem_map.mp hm
  exact (h i hi).lineSpan.start

theorem holds_collectCalls {sites : List CallSite} {symbols : List SymbolRecord}
    (hsites : ∀ c ∈ sites, Number.Holds c.line) (hsymbols : ∀ s ∈ symbols, s.Storable) :
    ∀ c ∈ collectCalls sites symbols, Number.Holds c.line := by
  intro c hc
  rw [collectCalls, List.mem_mergeSort, List.mem_append] at hc
  cases hc with
  | inl hc =>
    obtain ⟨site, hsite, rfl⟩ := List.mem_map.mp hc
    exact hsites site hsite
  | inr hc =>
    obtain ⟨s, hs, hc⟩ := List.mem_flatMap.mp hc
    obtain ⟨a, ha, hc⟩ := List.mem_flatMap.mp hc
    split at hc
    · obtain ⟨n, _, rfl⟩ := List.mem_map.mp hc
      exact ((hsymbols s hs).annotations.records a (AnnotationMap.mem_annotations_of_mem_ofNamespace ha)).lineSpan.start
    · exact absurd hc List.not_mem_nil

structure IndexedFile.Storable (f : IndexedFile) : Prop where
  file : f.file.Storable
  symbols : ∀ s ∈ f.symbols, s.Storable
  imports : ∀ s ∈ f.imports, Number.Holds s.line

theorem IndexedFile.storable_ofText (he : ∀ e ∈ rules.extractors, e.Exact) (hsize : text.length < lineLimit)
    {f : IndexedFile} (h : ofText rules path text = .ok f) : f.Storable := by
  obtain ⟨houtline, hreports⟩ := storable_outlineOf he path hsize
  obtain ⟨hblocks, hreports'⟩ := storable_blocksOf rules path hsize
  have made := madeOf_ofText h
  have hrecords {as : List AnnotationRecord} (h : ∀ a ∈ as, ∃ b ∈ (blocksOf rules path text).1, a ∈ b.annotations) :
      ∀ a ∈ as, a.Storable := fun a ha => by
    obtain ⟨b, hb, hab⟩ := h a ha
    exact (hblocks b hb).annotations a hab
  have hfile : ∀ a ∈ (association rules path text).fileRecords, a.Storable :=
    hrecords fun a ha => Association.mem_fileRecords ha
  have hstored : ∀ s ∈ f.symbols, s.Storable := by
    intro s hs
    obtain ⟨⟨d, q, records⟩, hmem, hd⟩ := mem_of_mapM_ok made.symbols hs
    have hzip := List.of_mem_zip hmem
    exact SymbolRecord.storable_ofDeclaration (houtline.declarations d hzip.1)
      (hrecords fun a ha => Association.mem_symbolRecords (List.of_mem_zip hzip.2).2 ha) hd
  refine ⟨{
    lines := made.lines ▸ houtline.lineCount
    nonneg := made.lines ▸ Int.natCast_nonneg _
    constraint := made.constraint ▸ Constraint.storable_ofFile hfile
    annotations := AnnotationMap.storable_ofRecords hfile made.annotations
    inline := made.inline ▸ holds_inlineMarkers fun i hi => ?_
    imports := made.unlinked ▸ List.forall_mem_nil _
    calls := made.calls ▸ holds_collectCalls houtline.calls hstored
    diagnostics := fun ds hds => ?_ }, hstored, made.imports ▸ houtline.imports⟩
  · obtain ⟨b, hb, hab⟩ := Association.mem_inline hi
    exact (hblocks b hb).annotations _ hab
  · rw [made.diagnostics] at hds
    split at hds
    · exact absurd hds (by simp)
    · intro d hd
      rw [← Option.some.inj hds, Diagnostic.sorted, List.mem_mergeSort] at hd
      simp only [List.mem_append] at hd
      exact hd.elim (fun hd => hd.elim (hreports d) (hreports' d)) (Association.storable_reports hblocks d)

end Files

end AnnotationIndex
