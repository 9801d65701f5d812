import AnnotationIndex.Proofs.Consistency
import AnnotationIndex.Proofs.Recorded
import AnnotationIndex.Proofs.Storable
import Mathlib.Algebra.Order.BigOperators.Group.List

/-!
What the index of a project records can be held by a document: linking adds nothing but names and targets, the
tables have each key once, and no count exceeds the number of annotations.
-/
namespace AnnotationIndex
open Text

section Linking

theorem LinkTables.line_linkImport {t : LinkTables} {path : Text} {s : ImportStatement} {e : ImportEntry}
    (he : e ∈ t.linkImport path s) : e.line = s.line := by
  rw [linkImport_eq_map] at he
  obtain ⟨_, _, rfl⟩ := List.mem_map.mp he
  rfl

namespace IndexedFile
variable {f : IndexedFile}

theorem Storable.relinked (h : f.Storable) (t : LinkTables) (relink : Text → Bool) :
    (ProjectIndex.relinked t relink f).Storable := by
  unfold ProjectIndex.relinked
  split
  · refine ⟨{ h.file with imports := fun e he => ?_ }, fun s hs => ?_, h.imports⟩
    · obtain ⟨s, hs, he⟩ := List.mem_flatMap.mp he
      rw [LinkTables.line_linkImport he]
      exact h.imports s hs
    · obtain ⟨s', hs', rfl⟩ := List.mem_map.mp hs
      exact { h.symbols s' hs' with }
  · exact h

end IndexedFile
end Linking

section Counts
variable {rules : IndexRules}

/-- The index of a file has at most one annotation for every line of its text. -/
theorem IndexedFile.length_stored {path text : Text} {f : IndexedFile} (h : ofText rules path text = .ok f) :
    f.stored.length ≤ lineCount text := by
  have hstored := ((subperm_stored h).trans (subperm_kept rules path text)).length_le
  have hstarts := (starts_blocksOf rules path text).length_le
  rw [AnnotationRecord.starts, List.length_map, List.length_map, List.length_range'] at hstarts
  exact hstored.trans hstarts

namespace ProjectIndex

def size (files : List (Text × Text)) : Nat := (files.map fun e => e.2.length + 1).sum

/-- The index of a project has no more annotations than the texts have lines. -/
theorem length_allAnnotations {files : List (Text × Text)} {fs : List IndexedFile}
    (h : files.mapM (fun e => IndexedFile.ofText rules e.1 e.2) = .ok fs) :
    (allAnnotations (ofIndexed fs).files (ofIndexed fs).symbols).length ≤ size files := by
  have hlines : List.Forall₂ (· ≤ ·) (fs.map fun f => (placed f).length) (files.map fun e => e.2.length + 1) := by
    rw [List.forall₂_map_left_iff, List.forall₂_map_right_iff]
    refine (forall₂_of_mapM_ok h).flip.imp fun f e hok => ?_
    rw [placed, List.length_map]
    exact (IndexedFile.length_stored hok).trans (lineCount_le e.2)
  have hall := (subperm_allAnnotations (owned_of_mapM h)).length_le
  rw [List.length_flatMap] at hall
  exact hall.trans hlines.sum_le_sum

end ProjectIndex
end Counts

section Tables

theorem Table.Keyed.mapValues {α β : Type} {t : Table α} (h : t.Keyed) (f : α → β) : (t.mapValues f).Keyed :=
  ⟨keys_mapValues f ▸ h.nodup, keys_mapValues f ▸ h.kept⟩

theorem keyed_withImporters {files : Table FileRecord} (h : files.Keyed) : (withImporters files).Keyed := h.mapValues _

theorem keyed_withCallers {symbols : Table SymbolRecord} (h : symbols.Keyed) : (withCallers symbols).Keyed :=
  h.mapValues _

theorem keyed_domainTable (files : Table FileRecord) (symbols : Table SymbolRecord) :
    (domainTable files symbols).Keyed := by
  have h := Table.keyed_gather ((sortedSet ((allDomainMarks files symbols).map (·.name))).map fun n =>
    (n, DomainRecord.ofMarks (allDomainMarks files symbols) n))
  rwa [Table.gather, List.foldl_map] at h

end Tables

section Statistics
variable {all : List (Text × AnnotationRecord)}

theorem ProvenanceStats.storable_ofAnnotations (hcount : all.length ≤ lineLimit) (hall : ∀ e ∈ all, e.2.Storable) :
    (ofAnnotations all).Storable := by
  have hholds (p : Text × AnnotationRecord → Bool) : Number.Holds (all.filter p).length :=
    holds_line hcount (List.length_filter_le p all)
  refine ⟨fun o => ?_, hholds _, hholds _, fun e he => ?_⟩
  · cases o <;> exact hholds _
  · rw [ofAnnotations, List.mem_mergeSort] at he
    obtain ⟨d, hd, rfl⟩ := List.mem_map.mp he
    have hrecord := hall d (List.mem_filter.mp hd).1
    exact ⟨hrecord.lineSpan.start, fun c hc => (hrecord.confidence c hc).double⟩

end Statistics

namespace ProjectIndex

theorem storable_ofLinked {linked : List IndexedFile} (h : ∀ f ∈ linked, f.Storable)
    (hcount : (allAnnotations (ofLinked linked).files (ofLinked linked).symbols).length ≤ lineLimit) :
    (ofLinked linked).Storable := by
  have hfiles : ∀ e ∈ (ofLinked linked).files, e.2.Storable := by
    intro e he
    obtain ⟨d, hd, rfl⟩ := List.mem_map.mp he
    obtain ⟨f, hf, rfl⟩ := List.mem_map.mp (Table.mem_of_gather hd)
    exact { (h f hf).file with }
  have hsymbols : ∀ e ∈ (ofLinked linked).symbols, e.2.Storable := by
    intro e he
    obtain ⟨d, hd, rfl⟩ := List.mem_map.mp he
    obtain ⟨s, hs, rfl⟩ := List.mem_map.mp (Table.mem_of_gather hd)
    obtain ⟨f, hf, hs⟩ := List.mem_flatMap.mp hs
    exact { (h f hf).symbols s hs with }
  refine ⟨?_, ?_, ?_, Table.keyed_gather _, hfiles, hsymbols, ?_⟩
  · exact keyed_withImporters (Table.keyed_gather _)
  · exact keyed_withCallers (Table.keyed_gather _)
  · exact keyed_domainTable _ _
  · refine ProvenanceStats.storable_ofAnnotations hcount fun e he => ?_
    cases List.mem_append.mp he with
    | inl he =>
      obtain ⟨f, hf, he⟩ := List.mem_flatMap.mp he
      obtain ⟨d, hd, rfl⟩ := List.mem_map.mp hf
      obtain ⟨a, ha, rfl⟩ := List.mem_map.mp he
      exact (hfiles d hd).annotations.records a ha
    | inr he =>
      obtain ⟨s, hs, he⟩ := List.mem_flatMap.mp he
      obtain ⟨d, hd, rfl⟩ := List.mem_map.mp hs
      obtain ⟨a, ha, rfl⟩ := List.mem_map.mp he
      exact (hsymbols d hd).annotations.records a ha

/-- The index of a project whose lines and annotations can be counted is an index that its document can hold. -/
theorem storable_ofFiles {rules : IndexRules} {files : List (Text × Text)} (he : ∀ e ∈ rules.extractors, e.Exact)
    (hsize : 2 * size files ≤ lineLimit) {r : ProjectIndex} (h : ofFiles rules files = .ok r) : r.Storable := by
  obtain ⟨fs, hfs, rfl⟩ := exists_indexed h
  have hone : ∀ e ∈ files, e.2.length + 1 ≤ size files := fun e hmem =>
    List.single_le_sum (fun _ _ => Nat.zero_le _) _ (List.mem_map_of_mem hmem)
  have hstorable : ∀ f ∈ fs, f.Storable := by
    intro f hf
    obtain ⟨text, hmem, hok⟩ := exists_text_of_mapM hfs hf
    have hlength : text.length + 1 ≤ size files := hone _ hmem
    exact IndexedFile.storable_ofText he (by omega) hok
  have hcount : (allAnnotations (ofIndexed fs).files (ofIndexed fs).symbols).length ≤ lineLimit :=
    (length_allAnnotations hfs).trans (by omega)
  rw [ofIndexed_eq] at hcount ⊢
  refine storable_ofLinked (fun g hg => ?_) hcount
  obtain ⟨f, hf, rfl⟩ := mem_linkedFiles.mp hg
  exact (hstorable f hf).relinked _ _

end ProjectIndex

end AnnotationIndex
