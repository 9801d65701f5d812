import AnnotationIndex.Proofs.StorableIndex

/-!
Saving and loading: an index that its document can hold is read back as the same value, and then written as the same
text.
-/
namespace AnnotationIndex
open Text

section Arranged

/-- Objects whose fields are the same but for the order of keys. -/
theorem Json.arranged_fields {entries entries' : List (String × Option Json)}
    (h : List.Forall₂ (fun e e' => e.1 = e'.1 ∧ e.2.map Json.arranged = e'.2.map Json.arranged) entries entries') :
    (Json.fields entries).arranged = (Json.fields entries').arranged := by
  have hpresent : (Check.present entries).map (fun e => (e.1, e.2.arranged)) =
      (Check.present entries').map fun e => (e.1, e.2.arranged) := by
    induction h with
    | nil => rfl
    | @cons e e' rest rest' he _ ih =>
      obtain ⟨hkey, hvalue⟩ := he
      rw [Check.present_cons, Check.present_cons, List.map_append, List.map_append, ih, hkey]
      congr 1
      cases hv : e.2 <;> cases hv' : e'.2 <;> simp_all
  have hfields : ∀ es, (Json.fields es).arranged =
      .obj (sortByKey ((Table.ofList (Check.present es)).mapValues Json.arranged)) := by
    intro es
    exact (Json.arranged_obj _).trans (congrArg Json.obj (sortByKey_map Json.arranged _).symm)
  rw [hfields, hfields, Table.mapValues_ofList, Table.mapValues_ofList, hpresent]

theorem Text.sortByKey_mapValues {α β : Type} (f : α → β) (t : Table α) :
    sortByKey (t.mapValues f) = (sortByKey t).map fun e => (e.1, f e.2) := sortByKey_map f t

/-- A table read back is the table, but for the order of its keys. -/
theorem Table.arranged_settled {α : Type} {f : α → Json} {g : α → α} {t : Table α} (hn : t.keys.Nodup)
    (h : ∀ e ∈ t, (f (g e.2)).arranged = (f e.2).arranged) :
    (Table.toJson f (t.settled.mapValues g)).arranged = (Table.toJson f t).arranged := by
  have hsorted : sortByKey t.settled = sortByKey t := sortByKey_perm (perm_settled hn) hn
  rw [Table.toJson, Table.toJson, Json.arranged_obj, Json.arranged_obj, sortByKey_mapValues, sortByKey_mapValues,
    sortByKey_mapValues, hsorted, List.map_map, List.map_map, List.map_map]
  refine congrArg Json.obj (List.map_congr_left fun e he => ?_)
  simp only [Function.comp_apply, h e ((perm_sortByKey t).subset he)]

theorem Table.arranged_settled_id {α : Type} (f : α → Json) {t : Table α} (hn : t.keys.Nodup) :
    (Table.toJson f t.settled).arranged = (Table.toJson f t).arranged := by
  have h := arranged_settled (f := f) (g := id) hn fun _ _ => rfl
  rwa [show t.settled.mapValues id = t.settled from List.map_id _] at h

theorem AnnotationMap.arranged_settled {m : AnnotationMap} (h : m.Storable) :
    (AnnotationMap.toJson (Table.settled m)).arranged = (AnnotationMap.toJson m).arranged :=
  Table.arranged_settled_id (fun as : List AnnotationRecord => Json.arr (as.map AnnotationRecord.toJson)) h.keyed.nodup

theorem SymbolRecord.arranged_settled {s : SymbolRecord} (h : s.Storable) :
    s.settled.toJson.arranged = s.toJson.arranged := by
  refine Json.arranged_fields ?_
  simp only [SymbolRecord.settled, List.forall₂_cons, Option.map_some, AnnotationMap.arranged_settled h.annotations,
    and_self, List.Forall₂.nil]

theorem FileRecord.arranged_settled {f : FileRecord} (h : f.Storable) :
    f.settled.toJson.arranged = f.toJson.arranged := by
  refine Json.arranged_fields ?_
  simp only [FileRecord.settled, List.forall₂_cons, Option.map_some, AnnotationMap.arranged_settled h.annotations,
    and_self, List.Forall₂.nil]

theorem ProjectIndex.arranged_settled {r : ProjectIndex} (h : r.Storable) :
    r.settled.toJson.arranged = r.toJson.arranged := by
  refine Json.arranged_fields ?_
  have hfiles := Table.arranged_settled h.files.nodup fun e he => FileRecord.arranged_settled (h.file e he)
  have hsymbols := Table.arranged_settled h.symbols.nodup fun e he => SymbolRecord.arranged_settled (h.symbol e he)
  have hdomains := Table.arranged_settled_id DomainRecord.toJson h.domains.nodup
  have hhashes := Table.arranged_settled_id .str h.hashes.nodup
  simp only [settled, List.forall₂_cons, Option.map_some, hfiles, hsymbols, hdomains, hhashes, and_self,
    List.Forall₂.nil]

end Arranged

namespace ProjectIndex

/-- A document states its version. -/
theorem checkVersion_stored (r : ProjectIndex) : checkVersion r.toJson.stored = .ok () := by
  have hkeys : (["schemaVersion", "files", "symbols", "domains", "constraintsIndex", "provenanceStats",
    "contentHashes"].map ofString).Nodup := by decide
  have hfield : r.toJson.stored.field? (ofString "schemaVersion") = some (.str version) := by
    refine Check.field?_stored (e := ("schemaVersion", some (.str version))) ?_ List.mem_cons_self
    exact hkeys
  rw [checkVersion, hfield]
  rfl

/-- An index that its document can hold is read back, its tables in the order of their keys. -/
theorem read_write {r : ProjectIndex} (h : r.Storable) : read r.write = .ok r.settled := by
  have hreads := Schema.reads_projectIndex h
  have hok := hreads.ok
  simp only [Option.map_some] at hok
  rw [read, write, Json.parse_stableText (hreads.storable _ rfl).legible 2]
  simp only [ofJson, checkVersion_stored, bind, Except.bind, hok]

/-- The index that is read back is written as the same text. -/
theorem write_settled {r : ProjectIndex} (h : r.Storable) : r.settled.write = r.write := by
  rw [write, write, Json.stableText_congr (arranged_settled h)]

/-- Every index that is built is read back from its document: as the same value but for the order of keys, and with
the same document. The extractors' line numbers and the counts of the index have to be numbers exactly, which for
counts up to `2 ^ 53` they are. -/
theorem read_write_ofFiles (rules : IndexRules) (files : List (Text × Text)) (he : ∀ e ∈ rules.extractors, e.Exact)
    (hsize : 2 * size files ≤ lineLimit) (r : ProjectIndex) (hr : ofFiles rules files = .ok r) :
    ∃ r', read r.write = .ok r' ∧ r'.toJson.arranged = r.toJson.arranged ∧ r'.write = r.write := by
  have hstorable := storable_ofFiles he hsize hr
  exact ⟨r.settled, read_write hstorable, arranged_settled hstorable, write_settled hstorable⟩

def generated : List (Text × Text) := [
  ("a.ts", "// @acp:fn f - adds\n// @acp:source heuristic\n// @acp:source-confidence 0.7\nexport function f() {}\n")]

theorem read_write_generated : ∃ r, ofFiles builtInRules generated = .ok r ∧
    ∃ r', read r.write = .ok r' ∧ r'.toJson.arranged = r.toJson.arranged ∧ r'.write = r.write := by
  have hok : (generated.mapM fun e => IndexedFile.ofText builtInRules e.1 e.2).isOk = true := by decide +kernel
  have hr : ofFiles builtInRules generated = .ok (ofIndexed (indexAll builtInRules generated)) := by
    rw [ofFiles, indexAll_eq hok]
    rfl
  exact ⟨_, hr, read_write_ofFiles builtInRules generated Extractor.exact_builtIn (by decide) _ hr⟩

end ProjectIndex
end AnnotationIndex
