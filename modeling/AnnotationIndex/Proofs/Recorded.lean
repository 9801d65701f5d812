import AnnotationIndex.Proofs.KeyOrder
import AnnotationIndex.Proofs.OneOwner
import AnnotationIndex.Proofs.Restore

/-!
What the index of a project records of its files and symbols. Everything but the edges is as the texts of the files
state it, every symbol is listed by the file that it is recorded for, and no annotation is recorded twice. A file
with the name that no table has as a key is not recorded; no extractor that is built in finds a symbol in it.
-/
namespace AnnotationIndex
open Text

namespace Table
variable {α : Type} {k : Text}

theorem gather_filter (entries : List (Text × α)) :
    gather (entries.filter fun e => e.1 != droppedKey) = gather entries := by
  rw [← ofList_filter, ← ofList_filter, List.filter_filter]
  simp

/-- The keys of a table are those of the entries, but for the name that it does not take. -/
theorem mem_keys_gather_iff {entries : List (Text × α)} :
    k ∈ (gather entries).keys ↔ k ∈ entries.map (·.1) ∧ k ≠ droppedKey := by
  rw [← gather_filter, mem_keys_gather fun e he => by simpa using (List.mem_filter.mp he).2]
  simp only [List.mem_map, List.mem_filter, bne_iff_ne]
  constructor
  · rintro ⟨e, ⟨he, hkey⟩, rfl⟩
    exact ⟨⟨e, he, rfl⟩, hkey⟩
  · rintro ⟨⟨e, he, rfl⟩, hkey⟩
    exact ⟨e, ⟨he, hkey⟩, rfl⟩

theorem subperm_gather (entries : List (Text × α)) : (gather entries).Subperm entries :=
  List.subperm_of_subset (List.Nodup.of_map _ (nodup_gather entries)) fun _ => mem_of_gather

end Table

namespace IndexedFile
variable {rules : IndexRules} {path text : Text} {f : IndexedFile}

/-- A file that no extractor reads has no symbols. -/
theorem symbols_of_unread (hx : Extractor.forFile? rules.extractors path = none) (h : ofText rules path text = .ok f) :
    f.symbols = [] := by
  have hdeclared : declared rules path text = [] := by
    rw [declared, outlineOf, hx]
    rfl
  exact List.forall₂_nil_left_iff.mp (hdeclared ▸ (annotated_ofText h).symbols)

end IndexedFile

namespace ProjectIndex
open IndexedFile
variable {fs : List IndexedFile} {relink : Text → Bool} {p q : Text} {f : FileRecord} {s : SymbolRecord}

theorem mem_relinked {g : IndexedFile} :
    g ∈ (fs.mergeSort IndexedFile.le).map (relinked (tablesOf fs) relink) ↔
      ∃ f ∈ fs, relinked (tablesOf fs) relink f = g := by
  simp

/-- A symbol of a linked file is one of the file, but for its edges. -/
theorem bare_of_mem_relinked {t : LinkTables} {g : IndexedFile} (hs : s ∈ (relinked t relink g).symbols) :
    ∃ s₀ ∈ g.symbols, s₀.qualifiedName = s.qualifiedName ∧ s.bare = s₀.bare := by
  unfold relinked at hs
  split at hs
  · obtain ⟨s₀, hs₀, rfl⟩ := List.mem_map.mp hs
    exact ⟨s₀, hs₀, rfl, rfl⟩
  · exact ⟨s, hs, rfl, rfl⟩

/-- What is recorded under a path is a file of that path, but for its edges. -/
theorem bare_of_file (hf : Table.get? (assemble fs relink).files p = some f) :
    ∃ g ∈ fs, g.path = p ∧ f.bare = g.file.bare := by
  rw [assemble_eq_ofLinked, ofLinked, ofRecords, withImporters, Table.get?_mapValues] at hf
  obtain ⟨f₀, hf₀, rfl⟩ := Option.map_eq_some_iff.mp hf
  obtain ⟨g, hg, he⟩ := List.mem_map.mp (Table.mem_of_gather (Table.mem_of_get? hf₀))
  obtain ⟨g₀, hg₀, rfl⟩ := mem_relinked.mp hg
  obtain ⟨rfl, rfl⟩ := Prod.mk.inj he
  have hbare := congrArg FileRecord.bare (forward_relinked (tablesOf fs) relink g₀)
  exact ⟨g₀, hg₀, (path_relinked _ _ g₀).symm, hbare⟩

/-- The hash recorded under a path is that of a file of the path. -/
theorem hash_of_file {hash : Text} (h : Table.get? (assemble fs relink).contentHashes p = some hash) :
    ∃ g ∈ fs, g.path = p ∧ g.hash = hash := by
  rw [assemble_eq_ofLinked, ofLinked, ofRecords] at h
  obtain ⟨g, hg, he⟩ := List.mem_map.mp (Table.mem_of_gather (Table.mem_of_get? h))
  obtain ⟨g₀, hg₀, rfl⟩ := mem_relinked.mp hg
  obtain ⟨rfl, rfl⟩ := Prod.mk.inj he
  exact ⟨g₀, hg₀, (path_relinked _ _ g₀).symm, (hash_relinked _ _ g₀).symm⟩

/-- What is recorded under a name is a symbol of that name, but for its edges. -/
theorem bare_of_symbol (hs : Table.get? (assemble fs relink).symbols q = some s) :
    ∃ g ∈ fs, ∃ s₀ ∈ g.symbols, s₀.qualifiedName = q ∧ s.bare = s₀.bare := by
  rw [assemble_eq_ofLinked, ofLinked, ofRecords, withCallers, Table.get?_mapValues] at hs
  obtain ⟨s₁, hs₁, rfl⟩ := Option.map_eq_some_iff.mp hs
  obtain ⟨s₂, hs₂, he⟩ := List.mem_map.mp (Table.mem_of_gather (Table.mem_of_get? hs₁))
  obtain ⟨rfl, rfl⟩ := Prod.mk.inj he
  obtain ⟨g, hg, hs₂⟩ := List.mem_flatMap.mp hs₂
  obtain ⟨g₀, hg₀, rfl⟩ := mem_relinked.mp hg
  obtain ⟨s₀, hs₀, hname, hbare⟩ := bare_of_mem_relinked hs₂
  exact ⟨g₀, hg₀, s₀, hs₀, hname, hbare⟩

theorem mem_keys_files : p ∈ (assemble fs relink).files.keys ↔ p ∈ fs.map (·.path) ∧ p ≠ Table.droppedKey := by
  have hpaths : ∀ q, q ∈ ((fs.mergeSort IndexedFile.le).map (relinked (tablesOf fs) relink)).map (·.path) ↔
      q ∈ fs.map (·.path) := by
    simp [path_relinked]
  rw [assemble_eq_ofLinked, ofLinked, ofRecords, withImporters, Table.keys_mapValues, Table.mem_keys_gather_iff,
    List.map_map]
  exact and_congr_left fun _ => hpaths p

/-- Files and hashes are recorded under the same keys. -/
theorem keys_hashes (fs : List IndexedFile) (relink : Text → Bool) :
    (assemble fs relink).contentHashes.keys = (assemble fs relink).files.keys := by
  rw [assemble_eq_ofLinked, ofLinked, ofRecords, withImporters, Table.keys_mapValues]
  refine Table.keys_gather_congr ?_
  simp only [List.map_map]
  rfl

theorem nodup_keys_files (fs : List IndexedFile) (relink : Text → Bool) : (assemble fs relink).files.keys.Nodup := by
  rw [assemble_eq_ofLinked, ofLinked, ofRecords, withImporters, Table.keys_mapValues]
  exact Table.nodup_gather _

theorem nodup_keys_symbols (fs : List IndexedFile) (relink : Text → Bool) :
    (assemble fs relink).symbols.keys.Nodup := by
  rw [assemble_eq_ofLinked, ofLinked, ofRecords, withCallers, Table.keys_mapValues]
  exact Table.nodup_gather _

theorem exists_bare_file (relink : Text → Bool) {g : IndexedFile} (hg : g ∈ fs)
    (hone : ∀ g' ∈ fs, g'.path = g.path → g' = g) (hp : g.path ≠ Table.droppedKey) :
    ∃ f, Table.get? (assemble fs relink).files g.path = some f ∧ f.bare = g.file.bare := by
  obtain ⟨f, hf⟩ :=
    Option.isSome_iff_exists.mp (Table.get?_isSome.mpr (mem_keys_files.mpr ⟨List.mem_map_of_mem hg, hp⟩))
  obtain ⟨g', hg', hpath, hbare⟩ := bare_of_file hf
  obtain rfl := hone g' hg' hpath
  exact ⟨f, hf, hbare⟩

section Annotations

theorem stored_relinked (t : LinkTables) (relink : Text → Bool) (f : IndexedFile) :
    (relinked t relink f).stored = f.stored := by
  unfold relinked
  split
  · rw [stored, stored, withEdges, List.flatMap_map]
  · rfl

def placed (f : IndexedFile) : List (Text × AnnotationRecord) := f.stored.map fun a => (f.path, a)

theorem placed_relinked (t : LinkTables) (relink : Text → Bool) (f : IndexedFile) :
    placed (relinked t relink f) = placed f := by
  rw [placed, placed, stored_relinked, path_relinked]

theorem subperm_ofLinked {linked : List IndexedFile} (hpath : ∀ f ∈ linked, f.file.path = f.path)
    (hfile : ∀ f ∈ linked, ∀ s ∈ f.symbols, s.file = f.path) :
    (allAnnotations (ofLinked linked).files (ofLinked linked).symbols).Subperm (linked.flatMap placed) := by
  let ofFile := fun e : Text × FileRecord => (AnnotationMap.annotations e.2.annotations).map fun a => (e.2.path, a)
  let ofSymbol := fun e : Text × SymbolRecord => (AnnotationMap.annotations e.2.annotations).map fun a => (e.2.file, a)
  let entries := (linked.flatMap (·.symbols)).map SymbolRecord.entry
  have hall : allAnnotations (ofLinked linked).files (ofLinked linked).symbols =
      (Table.gather (linked.map fileEntry)).flatMap ofFile ++ (Table.gather entries).flatMap ofSymbol := by
    simp only [allAnnotations, Table.values, ofLinked, ofRecords, withImporters, withCallers, Table.mapValues,
      List.flatMap_map]
    rfl
  have hplaced : ((linked.map fileEntry).flatMap ofFile ++ entries.flatMap ofSymbol).Perm (linked.flatMap placed) := by
    simp only [entries, List.flatMap_map, List.flatMap_assoc]
    refine (List.flatMap_append_perm _ _ _).trans (List.Perm.of_eq (List.flatMap_congr fun f hf => ?_))
    have hsymbols : f.symbols.flatMap (fun s => ofSymbol s.entry) =
        f.symbols.flatMap fun s => (AnnotationMap.annotations s.annotations).map fun a => (f.path, a) :=
      List.flatMap_congr fun s hs => by simp only [ofSymbol, SymbolRecord.entry, hfile f hf s hs]
    rw [hsymbols, placed, stored, List.map_append, List.map_flatMap, ← hpath f hf]
    rfl
  rw [hall]
  refine List.Subperm.trans ?_ hplaced.subperm
  exact ((List.subperm_append_right _).mpr (subperm_flatMap (Table.subperm_gather _) ofFile)).trans
    ((List.subperm_append_left _).mpr (subperm_flatMap (Table.subperm_gather _) ofSymbol))

/-- The index of files holds no annotation more often than they do. -/
theorem subperm_allAnnotations (h : ∀ f ∈ fs, f.Owned) :
    (allAnnotations (ofIndexed fs).files (ofIndexed fs).symbols).Subperm (fs.flatMap placed) := by
  have hlinked : ((linkedFiles fs).flatMap placed).Perm (fs.flatMap placed) := by
    rw [linkedFiles, List.flatMap_map]
    simp only [placed_relinked]
    exact (List.mergeSort_perm fs _).flatMap_right _
  rw [ofIndexed_eq]
  refine List.Subperm.trans (subperm_ofLinked (fun g hg => ?_) fun g hg s hs => ?_) hlinked.subperm
  · obtain ⟨f, hf, rfl⟩ := mem_linkedFiles.mp hg
    rw [file_path_relinked, path_relinked, (h f hf).path]
  · obtain ⟨f, hf, rfl⟩ := mem_linkedFiles.mp hg
    rw [relinked, if_pos rfl, withEdges] at hs
    obtain ⟨s₀, hs₀, rfl⟩ := List.mem_map.mp hs
    rw [path_relinked]
    exact (h f hf).files s₀ hs₀

end Annotations

/-- What an index holds of files and symbols comes from indexing texts by the rules. -/
structure Recorded (rules : IndexRules) (r : ProjectIndex) : Prop where
  files : r.files.keys.Nodup
  symbols : r.symbols.keys.Nodup
  file : ∀ p f, Table.get? r.files p = some f → f.path = p ∧
    ∃ text g, ofText rules p text = .ok g ∧ f.bare = g.file.bare
  symbol : ∀ q s, Table.get? r.symbols q = some s → s.qualifiedName = q ∧
    ∃ text g, ofText rules s.file text = .ok g ∧ ∃ s₀ ∈ g.symbols, s.bare = s₀.bare
  owner : ∀ q s, Table.get? r.symbols q = some s → ∃ f, Table.get? r.files s.file = some f ∧ q ∈ f.symbols

theorem recorded_ofFiles (rules : IndexRules) (files : List (Text × Text)) (hp : (files.map (·.1)).Nodup)
    (hx : Extractor.forFile? rules.extractors Table.droppedKey = none) {r : ProjectIndex}
    (hr : ofFiles rules files = .ok r) :
    Recorded rules r := by
  obtain ⟨fs, hfs, rfl⟩ := exists_indexed hr
  have hpaths : (fs.map (·.path)).Nodup := paths_of_mapM hfs ▸ hp
  have hmade : ∀ g ∈ fs, ∃ text, ofText rules g.path text = .ok g ∧ g.Owned := by
    intro g hg
    obtain ⟨text, _, hok⟩ := exists_text_of_mapM hfs hg
    exact ⟨text, hok, (owned_ofText hok).1⟩
  have hsymbol : ∀ q s, Table.get? (ofIndexed fs).symbols q = some s → ∃ g ∈ fs, s.file = g.path ∧ s.qualifiedName = q ∧
      ∃ s₀ ∈ g.symbols, s₀.qualifiedName = q ∧ s.bare = s₀.bare := by
    intro q s hs
    obtain ⟨g, hg, s₀, hs₀, hname, hbare⟩ := bare_of_symbol hs
    obtain ⟨_, _, howned⟩ := hmade g hg
    have hfile : s.file = s₀.file := congrArg (·.file) hbare
    have hqualified : s.qualifiedName = s₀.qualifiedName := congrArg (·.qualifiedName) hbare
    exact ⟨g, hg, hfile.trans (howned.files s₀ hs₀), hqualified.trans hname, s₀, hs₀, hname, hbare⟩
  constructor
  case files => exact nodup_keys_files fs _
  case symbols => exact nodup_keys_symbols fs _
  case file =>
    intro p f hf
    obtain ⟨g, hg, rfl, hbare⟩ := bare_of_file hf
    obtain ⟨text, hok, howned⟩ := hmade g hg
    have hpath : f.path = g.file.path := congrArg (·.path) hbare
    exact ⟨hpath.trans howned.path, text, g, hok, hbare⟩
  case symbol =>
    intro q s hs
    obtain ⟨g, hg, hfile, hname, s₀, hs₀, _, hbare⟩ := hsymbol q s hs
    obtain ⟨text, hok, _⟩ := hmade g hg
    exact ⟨hname, text, g, hfile ▸ hok, s₀, hs₀, hbare⟩
  case owner =>
    intro q s hs
    obtain ⟨g, hg, hfile, hname, s₀, hs₀, rfl, hbare⟩ := hsymbol q s hs
    obtain ⟨text, hok, howned⟩ := hmade g hg
    have hkept : g.path ≠ Table.droppedKey := by
      intro hdropped
      rw [symbols_of_unread (hdropped ▸ hx) hok] at hs₀
      exact absurd hs₀ List.not_mem_nil
    have hone : ∀ g' ∈ fs, g'.path = g.path → g' = g := fun g' hg' hpath => List.inj_on_of_nodup_map hpaths hg' hg hpath
    obtain ⟨f, hf, hfbare⟩ := exists_bare_file _ hg hone hkept
    have hsymbols : f.symbols = g.file.symbols := congrArg (·.symbols) hfbare
    exact ⟨f, hfile ▸ hf, hsymbols ▸ howned.listed ▸ List.mem_map_of_mem hs₀⟩

end ProjectIndex
end AnnotationIndex
