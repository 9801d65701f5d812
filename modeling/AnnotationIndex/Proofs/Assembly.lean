import AnnotationIndex.Proofs.Reach
import AnnotationIndex.Proofs.Table
import Mathlib.Data.List.Find
import Mathlib.Data.List.Nodup

/-!
Assembly from files whose edges are not all new. It gives the index of a full build if the files are those
of the build but for their edges, and the edges that are kept are those that linking would find.
-/
namespace AnnotationIndex
open Text

def SymbolRecord.bare (s : SymbolRecord) : SymbolRecord := { s with callers := [], callees := [] }

def FileRecord.bare (f : FileRecord) : FileRecord := { f with imports := [], importedBy := [] }

def namesOf (symbols : List SymbolRecord) : List (Text × Text) :=
  symbols.map fun s => (s.qualifiedName, s.displayName)

/-- Two indexed files that differ at most in their edges and in the records of symbols whose names stay. -/
structure IndexedFile.Alike (f g : IndexedFile) : Prop where
  path : f.path = g.path
  hash : f.hash = g.hash
  file : f.file.bare = g.file.bare
  imports : f.imports = g.imports
  named : namesOf f.symbols = namesOf g.symbols

theorem symbolNamed_eq_find? (u : LinkUnit) (name : Text) :
    u.symbolNamed name = ((namesOf u.symbols).find? fun n => n.2 == name).map (·.1) := by
  rw [namesOf, List.find?_map, Option.map_map]
  rfl

namespace IndexedFile.Alike
variable {f g : IndexedFile} (h : f.Alike g)
include h

theorem view_eq : f.linkUnit.view = g.linkUnit.view := by
  have hl : f.file.language = g.file.language := congrArg (fun r => r.language) h.file
  have he : f.file.exports = g.file.exports := congrArg (fun r => r.exports) h.file
  have hc : f.file.calls = g.file.calls := congrArg (fun r => r.calls) h.file
  have hs : f.linkUnit.symbolNamed = g.linkUnit.symbolNamed := by
    funext name
    rw [symbolNamed_eq_find?, symbolNamed_eq_find?]
    exact congrArg (fun ns => (ns.find? fun n => n.2 == name).map (·.1)) h.named
  simp only [LinkUnit.view, hs]
  simp only [linkUnit, h.path, hl, he, h.imports, hc]

theorem listed_eq : f.symbols.map (·.qualifiedName) = g.symbols.map (·.qualifiedName) := by
  have hm := congrArg (List.map (·.1)) h.named
  rw [namesOf, namesOf, List.map_map, List.map_map] at hm
  exact hm

end IndexedFile.Alike

/-- Among elements with distinct keys the one with a key is found by it. -/
theorem find?_eq_of_nodup {α : Type} {key : α → Text} {as : List α} (hn : (as.map key).Nodup) {a : α} (ha : a ∈ as) :
    as.find? (fun b => key b == key a) = some a := by
  cases hf : as.find? fun b => key b == key a with
  | none => exact absurd (beq_self_eq_true (key a)) (List.find?_eq_none.mp hf a ha)
  | some b =>
    have hkey : key b = key a := by simpa using List.find?_some hf
    rw [List.inj_on_of_nodup_map hn (List.mem_of_find?_eq_some hf) ha hkey]

namespace LinkTables
variable {ι : Type} {U V : ι → LinkUnit} {zs : List ι}

theorem unit?_map (U : ι → LinkUnit) (zs : List ι) (p : Text) :
    (⟨zs.map U⟩ : LinkTables).unit? p = (zs.reverse.find? fun z => (U z).path == p).map U := by
  rw [unit?, ← List.map_reverse, List.find?_map]
  rfl

theorem unit?_of_mem {t : LinkTables} (hn : (t.units.map (·.path)).Nodup) {u : LinkUnit} (hu : u ∈ t.units) :
    t.unit? u.path = some u := by
  have hn : (t.units.reverse.map (·.path)).Nodup := by
    rw [List.map_reverse]
    exact (List.reverse_perm _).nodup_iff.mpr hn
  exact find?_eq_of_nodup hn (List.mem_reverse.mpr hu)

theorem unit?_map_of_mem (hn : (zs.map fun z => (U z).path).Nodup) {z : ι} (hz : z ∈ zs) :
    (⟨zs.map U⟩ : LinkTables).unit? (U z).path = some (U z) := by
  refine unit?_of_mem ?_ (List.mem_map_of_mem hz)
  rw [List.map_map]
  exact hn

/-- The order of the units says nothing where each path is there once. -/
theorem unit?_perm {t t' : LinkTables} (hp : t.units.Perm t'.units) (hn : (t.units.map (·.path)).Nodup) (p : Text) :
    t.unit? p = t'.unit? p := by
  have hn' : (t'.units.map (·.path)).Nodup := (hp.map _).nodup_iff.mp hn
  refine Option.ext fun u => ⟨fun hu => ?_, fun hu => ?_⟩
  · obtain ⟨hm, rfl⟩ := unit?_mem hu
    exact unit?_of_mem hn' (hp.mem_iff.mp hm)
  · obtain ⟨hm, rfl⟩ := unit?_mem hu
    exact unit?_of_mem hn (hp.mem_iff.mpr hm)

theorem targets_perm {t t' : LinkTables} (hp : t.units.Perm t'.units) (hn : (t.units.map (·.path)).Nodup)
    (r : ModuleRequest) (source : Text) : t.targets r source = t'.targets r source := by
  rw [targets, targets, unit?_perm hp hn]
  exact congrArg (List.filter _) (ModuleTarget.find_congr (fun p => (hp.map (·.path)).mem_iff) _ _ _)

/-- A name is found in the last unit that lists it. -/
theorem symbol?_map (U : ι → LinkUnit) (zs : List ι) (q : Text) :
    (⟨zs.map U⟩ : LinkTables).symbol? q =
      (zs.reverse.find? fun z => decide (q ∈ (U z).listed)).bind fun z => (U z).symbol? q := by
  rw [symbol?_eq_findSome?, ← List.map_reverse]
  induction zs.reverse with
  | nil => rfl
  | cons z rest ih =>
    rw [List.map_cons, List.findSome?_cons, List.find?_cons]
    by_cases hq : q ∈ (U z).listed
    · obtain ⟨s, hs⟩ := LinkUnit.exists_symbol? hq
      simp [hq, hs]
    · simp [hq, LinkUnit.symbol?_eq_none.mpr hq, ih]

theorem symbol?_map_of_listed (hl : ∀ z ∈ zs, (U z).listed = (V z).listed) (q : Text) :
    (⟨zs.map U⟩ : LinkTables).symbol? q =
      (zs.reverse.find? fun z => decide (q ∈ (V z).listed)).bind fun z => (U z).symbol? q := by
  rw [symbol?_map]
  congr 1
  exact List.find?_congr fun z hz => by rw [hl z (List.mem_reverse.mp hz)]

/-- Units that list the same names know a name in the same place. -/
theorem symbol?_map_congr {β : Type} {g : SymbolRecord → β} {q : Text}
    (hl : ∀ z ∈ zs, (U z).listed = (V z).listed)
    (hs : ∀ z ∈ zs, ((U z).symbol? q).map g = ((V z).symbol? q).map g) :
    ((⟨zs.map U⟩ : LinkTables).symbol? q).map g = ((⟨zs.map V⟩ : LinkTables).symbol? q).map g := by
  rw [symbol?_map_of_listed hl, symbol?_map]
  cases hfind : zs.reverse.find? fun z => decide (q ∈ (V z).listed) with
  | none => rfl
  | some z => exact hs z (List.mem_reverse.mp (List.mem_of_find?_eq_some hfind))

theorem namesApart_map (hl : ∀ z ∈ zs, (U z).listed = (V z).listed) (h : (⟨zs.map U⟩ : LinkTables).NamesApart) :
    (⟨zs.map V⟩ : LinkTables).NamesApart := by
  refine List.pairwise_map.mpr ((List.pairwise_map.mp h).imp_of_mem fun {y z} hy hz hn q hq hq' => ?_)
  rw [← hl y hy] at hq
  rw [← hl z hz] at hq'
  exact hn q hq hq'

section Congr
variable (h : ∀ z ∈ zs, (U z).view = (V z).view)
include h

theorem view_map_congr (p : Text) : ((⟨zs.map U⟩ : LinkTables).unit? p).map (·.view) =
    ((⟨zs.map V⟩ : LinkTables).unit? p).map (·.view) := by
  have hp : (zs.reverse.find? fun z => (U z).path == p) = zs.reverse.find? fun z => (V z).path == p := by
    refine List.find?_congr fun z hz => ?_
    rw [show (U z).path = (V z).path from congrArg UnitView.path (h z (List.mem_reverse.mp hz))]
  rw [unit?_map, unit?_map, hp]
  cases hz : zs.reverse.find? fun z => (V z).path == p with
  | none => rfl
  | some z => exact congrArg some (h z (List.mem_reverse.mp (List.mem_of_find?_eq_some hz)))

theorem files_map_congr : (⟨zs.map U⟩ : LinkTables).files = (⟨zs.map V⟩ : LinkTables).files := by
  simp only [files, List.map_map]
  congr 1
  exact List.map_congr_left fun z hz => congrArg UnitView.path (h z hz)

theorem language_map_congr (p : Text) : ((⟨zs.map U⟩ : LinkTables).unit? p).map (·.language) =
    ((⟨zs.map V⟩ : LinkTables).unit? p).map (·.language) := by
  have hv := congrArg (Option.map UnitView.language) (view_map_congr h p)
  rwa [Option.map_map, Option.map_map] at hv

theorem targets_map_congr (r : ModuleRequest) (source : Text) :
    (⟨zs.map U⟩ : LinkTables).targets r source = (⟨zs.map V⟩ : LinkTables).targets r source := by
  simp only [targets, files_map_congr h, language_map_congr h]

theorem siblings_map_congr (path language : Text) :
    (⟨zs.map U⟩ : LinkTables).siblings path language = (⟨zs.map V⟩ : LinkTables).siblings path language := by
  simp only [siblings, files_map_congr h, language_map_congr h]

end Congr
end LinkTables

/-- Without its reverse edges, which are always computed anew. -/
def FileRecord.forward (f : FileRecord) : FileRecord := { f with importedBy := [] }

def SymbolRecord.forward (s : SymbolRecord) : SymbolRecord := { s with callers := [] }

section ReverseEdges

theorem withImporters_forward (files : Table FileRecord) :
    withImporters (files.mapValues FileRecord.forward) = withImporters files := by
  have hi : ∀ path, importersOf (files.mapValues FileRecord.forward) path = importersOf files path := by
    intro path
    simp only [importersOf, Table.values, Table.mapValues, List.map_map, List.filter_map]
    rfl
  simp only [withImporters, Table.mapValues, List.map_map]
  refine List.map_congr_left fun e _ => ?_
  simp only [Function.comp_apply]
  rw [← Table.mapValues, hi]
  rfl

theorem withCallers_forward (symbols : Table SymbolRecord) :
    withCallers (symbols.mapValues SymbolRecord.forward) = withCallers symbols := by
  have hi : ∀ name, callersOf (symbols.mapValues SymbolRecord.forward) name = callersOf symbols name := by
    intro name
    simp only [callersOf, Table.values, Table.mapValues, List.map_map, List.filter_map]
    rfl
  simp only [withCallers, Table.mapValues, List.map_map]
  refine List.map_congr_left fun e _ => ?_
  simp only [Function.comp_apply]
  rw [← Table.mapValues, hi]
  rfl

theorem ProjectIndex.ofRecords_congr {files files' : Table FileRecord} {symbols symbols' : Table SymbolRecord}
    (hf : files.mapValues FileRecord.forward = files'.mapValues FileRecord.forward)
    (hs : symbols.mapValues SymbolRecord.forward = symbols'.mapValues SymbolRecord.forward)
    (hashes : Table Text) : ofRecords files symbols hashes = ofRecords files' symbols' hashes := by
  have hfiles : withImporters files = withImporters files' := by
    rw [← withImporters_forward files, hf, withImporters_forward]
  have hsymbols : withCallers symbols = withCallers symbols' := by
    rw [← withCallers_forward symbols, hs, withCallers_forward]
  simp only [ofRecords, hfiles, hsymbols]

end ReverseEdges

namespace IndexedFile

def fileEntry (f : IndexedFile) : Text × FileRecord := (f.path, f.file)

def hashEntry (f : IndexedFile) : Text × Text := (f.path, f.hash)

end IndexedFile

def SymbolRecord.entry (s : SymbolRecord) : Text × SymbolRecord := (s.qualifiedName, s)

namespace ProjectIndex
open IndexedFile

def tablesOf (fs : List IndexedFile) : LinkTables := ⟨(fs.mergeSort IndexedFile.le).map linkUnit⟩

def relinked (t : LinkTables) (relink : Text → Bool) (f : IndexedFile) : IndexedFile :=
  if relink f.path then f.withEdges (t.link f.linkUnit) else f

def ofLinked (linked : List IndexedFile) : ProjectIndex :=
  ofRecords (Table.gather (linked.map fileEntry)) (Table.gather ((linked.flatMap (·.symbols)).map SymbolRecord.entry))
    (Table.gather (linked.map hashEntry))

theorem assemble_eq_ofLinked (fs : List IndexedFile) (relink : Text → Bool) :
    assemble fs relink = ofLinked ((fs.mergeSort IndexedFile.le).map (relinked (tablesOf fs) relink)) := by
  simp only [assemble, ofLinked, symbolTable, Table.gather, List.foldl_map]
  rfl

/-- What is recorded under a qualified name is what its last symbol says. -/
theorem lookup_symbols (linked : List IndexedFile) (q : Text) :
    ((linked.flatMap (·.symbols)).map SymbolRecord.entry).reverse.lookup q =
      (⟨linked.map linkUnit⟩ : LinkTables).symbol? q := by
  have hu : (linked.map linkUnit).flatMap (·.symbols) = linked.flatMap (·.symbols) := by
    rw [List.flatMap_map]
    rfl
  rw [LinkTables.symbol?, hu, ← List.map_reverse]
  induction (linked.flatMap (·.symbols)).reverse with
  | nil => rfl
  | cons s rest ih =>
    rw [List.map_cons, List.lookup_cons, List.find?_cons, ih, SymbolRecord.entry, Bool.beq_comm]

theorem keys_symbols (linked : List IndexedFile) :
    ((linked.flatMap (·.symbols)).map SymbolRecord.entry).map (·.1) =
      linked.flatMap fun f => f.symbols.map (·.qualifiedName) := by
  rw [List.map_map, List.map_flatMap]
  rfl

/-- The index is the same for files that differ only in reverse edges and in symbols that are recorded
anew further on. -/
theorem ofLinked_congr {linked linked' : List IndexedFile}
    (hf : linked.map (fun f => (f.path, f.file.forward, f.hash)) =
      linked'.map fun f => (f.path, f.file.forward, f.hash))
    (hk : linked.flatMap (fun f => f.symbols.map (·.qualifiedName)) =
      linked'.flatMap fun f => f.symbols.map (·.qualifiedName))
    (hd : ∀ q ∈ linked.flatMap (fun f => f.symbols.map (·.qualifiedName)), q ≠ Table.droppedKey)
    (hs : ∀ q, ((⟨linked.map linkUnit⟩ : LinkTables).symbol? q).map SymbolRecord.forward =
      ((⟨linked'.map linkUnit⟩ : LinkTables).symbol? q).map SymbolRecord.forward) :
    ofLinked linked = ofLinked linked' := by
  have hhashes : linked.map hashEntry = linked'.map hashEntry := by
    have h := congrArg (List.map fun e => (e.1, e.2.2)) hf
    rwa [List.map_map, List.map_map] at h
  have hfiles : (Table.gather (linked.map fileEntry)).mapValues FileRecord.forward =
      (Table.gather (linked'.map fileEntry)).mapValues FileRecord.forward := by
    have h := congrArg (fun es => Table.gather (es.map fun e => (e.1, e.2.1))) hf
    simp only [List.map_map] at h
    rw [Table.mapValues_gather, Table.mapValues_gather, List.map_map, List.map_map]
    exact h
  have hnone : ∀ linked : List IndexedFile,
      (∀ q ∈ linked.flatMap (fun f => f.symbols.map (·.qualifiedName)), q ≠ Table.droppedKey) →
      ∀ e ∈ (linked.flatMap (·.symbols)).map SymbolRecord.entry, e.1 ≠ Table.droppedKey := by
    intro linked hd e he
    exact hd e.1 (keys_symbols linked ▸ List.mem_map_of_mem he)
  have hsymbols : (Table.gather ((linked.flatMap (·.symbols)).map SymbolRecord.entry)).mapValues
        SymbolRecord.forward =
      (Table.gather ((linked'.flatMap (·.symbols)).map SymbolRecord.entry)).mapValues SymbolRecord.forward := by
    refine Table.ext_of_get? ?_ ?_ fun q => ?_
    · rw [Table.keys_mapValues, Table.keys_mapValues]
      exact Table.keys_gather_congr (by rw [keys_symbols, keys_symbols, hk])
    · rw [Table.keys_mapValues]
      exact Table.nodup_gather _
    · rw [Table.get?_mapValues, Table.get?_mapValues, Table.get?_gather (hnone linked hd),
        Table.get?_gather (hnone linked' (hk ▸ hd)), lookup_symbols, lookup_symbols, hs q]
  rw [ofLinked, ofLinked, hhashes]
  exact ofRecords_congr hfiles hsymbols _

/-- Linked files of which the tables of an index keep every path and name. -/
structure Recordable (linked : List IndexedFile) : Prop where
  paths : (linked.map (·.path)).Nodup
  keyed : ∀ g ∈ linked, g.path ≠ Table.droppedKey
  named : ∀ g ∈ linked, ∀ s ∈ g.symbols, s.qualifiedName ≠ Table.droppedKey

namespace Recordable
variable {linked : List IndexedFile} (h : Recordable linked) {g : IndexedFile}
include h

theorem lookup_entry {α : Type} (entry : IndexedFile → Text × α) (he : ∀ f, (entry f).1 = f.path) (hg : g ∈ linked) :
    Table.get? (Table.gather (linked.map entry)) g.path = some (entry g).2 := by
  have hk : ∀ e ∈ linked.map entry, e.1 ≠ Table.droppedKey := by
    intro e hm
    obtain ⟨g, hg, rfl⟩ := List.mem_map.mp hm
    rw [he g]
    exact h.keyed g hg
  have hn : ((linked.map entry).map (·.1)).Nodup := by
    simp only [List.map_map, Function.comp_def, he]
    exact h.paths
  rw [Table.get?_gather hk, ← he g]
  exact Table.lookup_reverse_of_mem hn (List.mem_map_of_mem hg)

/-- What is recorded of a file is the linked file, and who imports it. -/
theorem file (hg : g ∈ linked) : Table.get? (ofLinked linked).files g.path =
    some { g.file with
      importedBy := AnnotationIndex.importersOf (Table.gather (linked.map fileEntry)) g.file.path } := by
  rw [ofLinked, ofRecords, withImporters, Table.get?_mapValues, h.lookup_entry fileEntry (fun _ => rfl) hg]
  rfl

theorem hash (hg : g ∈ linked) : Table.get? (ofLinked linked).contentHashes g.path = some g.hash :=
  h.lookup_entry hashEntry (fun _ => rfl) hg

theorem hash_eq_none {p : Text} (hp : p ∉ linked.map (·.path)) :
    Table.get? (ofLinked linked).contentHashes p = none := by
  have hk : ∀ e ∈ linked.map hashEntry, e.1 ≠ Table.droppedKey := by
    intro e he
    obtain ⟨g, hg, rfl⟩ := List.mem_map.mp he
    exact h.keyed g hg
  refine Table.get?_eq_none.mpr fun hkey => hp ?_
  have hmem := (Table.mem_keys_gather hk).mp hkey
  rw [List.map_map] at hmem
  exact hmem

/-- What is recorded of a name is what its last symbol says, and who calls it. -/
theorem symbol (q : Text) : (Table.get? (ofLinked linked).symbols q).map SymbolRecord.forward =
    ((⟨linked.map linkUnit⟩ : LinkTables).symbol? q).map SymbolRecord.forward := by
  have hk : ∀ e ∈ (linked.flatMap (·.symbols)).map SymbolRecord.entry, e.1 ≠ Table.droppedKey := by
    intro e he
    obtain ⟨s, hs, rfl⟩ := List.mem_map.mp he
    obtain ⟨g, hg, hs⟩ := List.mem_flatMap.mp hs
    exact h.named g hg s hs
  rw [ofLinked, ofRecords, withCallers, Table.get?_mapValues, Table.get?_gather hk, lookup_symbols, Option.map_map]
  rfl

theorem keys : ((ofLinked linked).files.keys).Perm (linked.map (·.path)) := by
  have hk : ∀ e ∈ linked.map fileEntry, e.1 ≠ Table.droppedKey := by
    intro e he
    obtain ⟨g, hg, rfl⟩ := List.mem_map.mp he
    exact h.keyed g hg
  rw [ofLinked, ofRecords, withImporters, Table.keys_mapValues]
  refine (List.perm_ext_iff_of_nodup (Table.nodup_gather _) h.paths).mpr fun p => ?_
  rw [Table.mem_keys_gather hk, List.map_map]
  rfl

end Recordable

section Pairs

theorem eq_of_mem_zip {α β γ : Type} {f : α → γ} {g : β → γ} {as : List α} {bs : List β}
    (h : as.map f = bs.map g) {z : α × β} (hz : z ∈ as.zip bs) : f z.1 = g z.2 := by
  induction as generalizing bs with
  | nil => exact nomatch hz
  | cons a as ih =>
    cases bs with
    | nil => exact nomatch hz
    | cons b bs =>
      obtain ⟨hhead, htail⟩ := List.cons.inj h
      cases List.mem_cons.mp hz with
      | inl hz => exact hz ▸ hhead
      | inr hz => exact ih htail hz

/-- Files with the same paths come in the same order. -/
theorem exists_pairs {fs gs : List IndexedFile} (h : (gs.map (·.path)).Perm (fs.map (·.path))) :
    ∃ zs : List (IndexedFile × IndexedFile), fs.mergeSort IndexedFile.le = zs.map (·.1) ∧
      gs.mergeSort IndexedFile.le = zs.map (·.2) ∧ ∀ z ∈ zs, z.1 ∈ fs ∧ z.2 ∈ gs ∧ z.1.path = z.2.path := by
  have hsorted : ∀ fs : List IndexedFile,
      ((fs.mergeSort IndexedFile.le).map (·.path)).Pairwise fun p q => Text.le p q = true := by
    intro fs
    refine List.pairwise_map.mpr (List.pairwise_mergeSort ?_ ?_ fs)
    · exact fun a b c => Text.le_trans a.path b.path c.path
    · exact fun a b => Text.le_total a.path b.path
  have hperm : ((fs.mergeSort IndexedFile.le).map (·.path)).Perm ((gs.mergeSort IndexedFile.le).map (·.path)) :=
    ((List.mergeSort_perm fs _).map _).trans (h.symm.trans ((List.mergeSort_perm gs _).map _).symm)
  have hpaths := hperm.eq_of_pairwise (fun p q _ _ => Text.le_antisymm) (hsorted fs) (hsorted gs)
  have hlength : (fs.mergeSort IndexedFile.le).length = (gs.mergeSort IndexedFile.le).length := by
    simpa using congrArg List.length hpaths
  refine ⟨(fs.mergeSort IndexedFile.le).zip (gs.mergeSort IndexedFile.le), ?_, ?_, fun z hz => ?_⟩
  · exact (List.map_fst_zip hlength.le).symm
  · exact (List.map_snd_zip hlength.ge).symm
  · obtain ⟨hf, hg⟩ := List.of_mem_zip hz
    exact ⟨List.mem_mergeSort.mp hf, List.mem_mergeSort.mp hg, eq_of_mem_zip hpaths hz⟩

end Pairs

section Relinked
variable {t : LinkTables} {relink : Text → Bool} {f : IndexedFile}

theorem path_relinked (t : LinkTables) (relink : Text → Bool) (f : IndexedFile) :
    (relinked t relink f).path = f.path := by
  unfold relinked
  split <;> rfl

theorem hash_relinked (t : LinkTables) (relink : Text → Bool) (f : IndexedFile) :
    (relinked t relink f).hash = f.hash := by
  unfold relinked
  split <;> rfl

theorem names_relinked (t : LinkTables) (relink : Text → Bool) (f : IndexedFile) :
    (relinked t relink f).symbols.map (·.qualifiedName) = f.symbols.map (·.qualifiedName) := by
  unfold relinked
  split
  · rw [withEdges, List.map_map]
    rfl
  · rfl

theorem file_path_relinked (t : LinkTables) (relink : Text → Bool) (f : IndexedFile) :
    (relinked t relink f).file.path = f.file.path := by
  unfold relinked
  split <;> rfl

theorem forward_relinked (t : LinkTables) (relink : Text → Bool) (f : IndexedFile) :
    (relinked t relink f).file.forward =
      { f.file.bare with imports := if relink f.path then (t.link f.linkUnit).imports else f.file.imports } := by
  unfold relinked
  split <;> rfl

theorem listed_relinked (t : LinkTables) (relink : Text → Bool) (f : IndexedFile) :
    (relinked t relink f).linkUnit.listed = f.linkUnit.listed := names_relinked t relink f

def withCallees (l : LinkedFile) (s : SymbolRecord) : SymbolRecord :=
  { s with callees := (l.callees.lookup s.qualifiedName).getD [] }

theorem symbol?_relinked (t : LinkTables) (relink : Text → Bool) (f : IndexedFile) (q : Text) :
    (relinked t relink f).linkUnit.symbol? q =
      if relink f.path then (f.linkUnit.symbol? q).map (withCallees (t.link f.linkUnit))
      else f.linkUnit.symbol? q := by
  unfold relinked
  split
  · rw [LinkUnit.symbol?, linkUnit, withEdges, ← List.map_reverse, List.find?_map]
    rfl
  · rfl

end Relinked

abbrev built (zs : List (IndexedFile × IndexedFile)) : LinkTables := ⟨zs.map fun z => z.1.linkUnit⟩

abbrev held (zs : List (IndexedFile × IndexedFile)) : LinkTables := ⟨zs.map fun z => z.2.linkUnit⟩

abbrev full (zs : List (IndexedFile × IndexedFile)) : LinkTables :=
  ⟨zs.map fun z => (relinked (built zs) (fun _ => true) z.1).linkUnit⟩

theorem nodup_sorted {fs : List IndexedFile} (hn : (fs.map (·.path)).Nodup) :
    ((fs.mergeSort IndexedFile.le).map (·.path)).Nodup :=
  ((List.mergeSort_perm fs _).map _).nodup_iff.mpr hn

section Sorted
variable {α : Type} {fs : List IndexedFile} {file : α → IndexedFile} {as : List α}
  (h : fs.mergeSort IndexedFile.le = as.map file)
include h

theorem tablesOf_eq_map : tablesOf fs = ⟨as.map fun a => (file a).linkUnit⟩ := by
  rw [tablesOf, h, List.map_map]
  rfl

theorem assemble_eq_map (relink : Text → Bool) : assemble fs relink =
    ofLinked (as.map fun a => relinked ⟨as.map fun a => (file a).linkUnit⟩ relink (file a)) := by
  rw [assemble_eq_ofLinked, tablesOf_eq_map h, h, List.map_map]
  rfl

theorem nodup_of_sorted (hn : (fs.map (·.path)).Nodup) : (as.map fun a => (file a).path).Nodup := by
  have hsorted := nodup_sorted hn
  rwa [h, List.map_map] at hsorted

end Sorted

theorem tablesOf_eq_built {fs : List IndexedFile} {zs : List (IndexedFile × IndexedFile)}
    (h : fs.mergeSort IndexedFile.le = zs.map (·.1)) : tablesOf fs = built zs := tablesOf_eq_map h

/-- Files of a full build before they are linked, paired with files at hand that differ at most in edges. -/
structure Renewal (zs : List (IndexedFile × IndexedFile)) : Prop where
  alike : ∀ z ∈ zs, z.1.Alike z.2
  owned : ∀ z ∈ zs, z.1.Owned
  paths : (zs.map fun z => z.1.path).Nodup
  symbols : ∀ q, ((built zs).symbol? q).map SymbolRecord.bare =
    ((held zs).symbol? q).map SymbolRecord.bare

namespace Renewal
variable {zs : List (IndexedFile × IndexedFile)} (h : Renewal zs)
include h

/-- Linking finds the same edges. -/
theorem link_eq {z : IndexedFile × IndexedFile} (hz : z ∈ zs) :
    (built zs).link z.1.linkUnit = (held zs).link z.2.linkUnit := by
  have hview : ∀ z ∈ zs, z.1.linkUnit.view = z.2.linkUnit.view := fun z hz => (h.alike z hz).view_eq
  have hpaths : (zs.map fun z => z.2.path).Nodup := by
    rw [List.map_congr_left fun z hz => (h.alike z hz).path.symm]
    exact h.paths
  have hleft : (built zs).unit? z.1.path = some z.1.linkUnit := LinkTables.unit?_map_of_mem h.paths hz
  have hright : (held zs).unit? z.1.path = some z.2.linkUnit := by
    rw [(h.alike z hz).path]
    exact LinkTables.unit?_map_of_mem hpaths hz
  refine LinkTables.FileFrame.link_eq (F := fun _ => True)
    ⟨⟨?_, ?_, ?_⟩, fun _ _ => trivial, ?_, trivial, hleft, hright, ?_, ?_, ?_, ?_, ?_, ?_⟩
  · exact fun p _ => LinkTables.view_map_congr hview p
  · exact fun u _ _ r _ => LinkTables.targets_map_congr hview r u.path
  · exact fun _ _ _ _ _ _ _ => trivial
  · exact fun p _ => LinkTables.view_map_congr hview p
  · exact fun s _ => LinkTables.targets_map_congr hview s.request _
  · exact fun _ _ _ _ => trivial
  · exact fun _ => ⟨LinkTables.siblings_map_congr hview _ _, fun _ _ => trivial⟩
  · intro q _
    have hs := congrArg (Option.map SymbolRecord.site) (h.symbols q)
    rwa [Option.map_map, Option.map_map] at hs
  · exact fun _ _ _ _ => trivial
  · exact (h.owned z hz).linkUnit.callers

/-- A symbol gets the callees of the full build where its file is linked again, and where it has them. -/
theorem forward_relinked_symbol {z : IndexedFile × IndexedFile} (hz : z ∈ zs) {relink : Text → Bool} {q : Text}
    {s s' : SymbolRecord} (hs' : z.2.linkUnit.symbol? q = some s') (hbare : s.bare = s'.bare)
    (hkept : relink z.2.path = false → (withCallees ((built zs).link z.1.linkUnit) s).callees = s'.callees) :
    ((relinked (held zs) relink z.2).linkUnit.symbol? q).map SymbolRecord.forward =
      some (withCallees ((built zs).link z.1.linkUnit) s).forward := by
  rw [symbol?_relinked, hs', ← h.link_eq hz]
  split
  · exact congrArg (fun b => some { b with
      callees := (((built zs).link z.1.linkUnit).callees.lookup b.qualifiedName).getD [] }) hbare.symm
  · next hk =>
    have hc := hkept (by simpa using hk)
    have heq : { s'.bare with callees := s'.callees } =
        { s.bare with callees := (withCallees ((built zs).link z.1.linkUnit) s).callees } := by
      rw [hbare, hc]
    exact congrArg some heq

/-- The last symbol of a name gets the callees that it has in the full build. -/
theorem forward_symbol? {relink : Text → Bool}
    (hcallees : ∀ z ∈ zs, relink z.2.path = false → ∀ s ∈ z.2.symbols,
      ((full zs).symbol? s.qualifiedName).map (·.callees) = some s.callees) (q : Text) :
    ((⟨zs.map fun z => (relinked (held zs) relink z.2).linkUnit⟩ : LinkTables).symbol? q).map
        SymbolRecord.forward =
      ((full zs).symbol? q).map SymbolRecord.forward := by
  -- in all four lists of units the name is found in the same place
  have hl : ∀ z ∈ zs, z.2.linkUnit.listed = z.1.linkUnit.listed := fun z hz => (h.alike z hz).listed_eq.symm
  have hl' : ∀ z ∈ zs, (relinked (held zs) relink z.2).linkUnit.listed = z.1.linkUnit.listed :=
    fun z hz => (listed_relinked _ _ _).trans (hl z hz)
  have hlfull : ∀ z ∈ zs, (relinked (built zs) (fun _ => true) z.1).linkUnit.listed = z.1.linkUnit.listed :=
    fun z _ => listed_relinked _ _ _
  have hfull : (full zs).symbol? q = _ := LinkTables.symbol?_map_of_listed hlfull q
  have hsym := h.symbols q
  rw [LinkTables.symbol?_map, LinkTables.symbol?_map_of_listed hl] at hsym
  rw [LinkTables.symbol?_map_of_listed hl', hfull]
  cases hfind : zs.reverse.find? fun z => decide (q ∈ z.1.linkUnit.listed) with
  | none => rfl
  | some z =>
    have hz : z ∈ zs := List.mem_reverse.mp (List.mem_of_find?_eq_some hfind)
    have hq : q ∈ z.1.linkUnit.listed := by simpa using List.find?_some hfind
    obtain ⟨s, hs⟩ := LinkUnit.exists_symbol? hq
    obtain ⟨s', hs'⟩ := LinkUnit.exists_symbol? (hl z hz ▸ hq)
    rw [hfind, Option.bind_some, Option.bind_some, hs, hs'] at hsym
    rw [hfind, Option.bind_some, symbol?_relinked, if_pos rfl, hs] at hfull
    rw [Option.bind_some, Option.bind_some, h.forward_relinked_symbol hz hs' (Option.some.inj hsym) fun hk => ?_,
      symbol?_relinked, if_pos rfl, hs]
    · rfl
    · obtain ⟨hmem, hname⟩ := LinkUnit.symbol?_mem hs'
      have hc := hcallees z hz hk s' hmem
      rw [hname, hfull] at hc
      exact Option.some.inj hc

/-- Files whose kept edges are those of the full build are assembled into its index. -/
theorem ofLinked_eq {relink : Text → Bool}
    (himports : ∀ z ∈ zs, relink z.2.path = false →
      z.2.file.imports = ((built zs).link z.1.linkUnit).imports)
    (hcallees : ∀ z ∈ zs, relink z.2.path = false → ∀ s ∈ z.2.symbols,
      ((full zs).symbol? s.qualifiedName).map (·.callees) = some s.callees) :
    ofLinked (zs.map fun z => relinked (held zs) relink z.2) =
      ofLinked (zs.map fun z => relinked (built zs) (fun _ => true) z.1) := by
  have hnames : ∀ z ∈ zs, z.2.symbols.map (·.qualifiedName) = z.1.symbols.map (·.qualifiedName) :=
    fun z hz => (h.alike z hz).listed_eq.symm
  refine ofLinked_congr ?_ ?_ ?_ fun q => ?_
  · rw [List.map_map, List.map_map]
    refine List.map_congr_left fun z hz => ?_
    have ha := h.alike z hz
    have himp : (if relink z.2.path then ((held zs).link z.2.linkUnit).imports else z.2.file.imports) =
        ((built zs).link z.1.linkUnit).imports := by
      split
      · rw [h.link_eq hz]
      · next hk => exact himports z hz (by simpa using hk)
    simp only [Function.comp_apply, path_relinked, hash_relinked, forward_relinked, himp, ha.path, ha.hash, ha.file,
      if_true]
  · rw [List.flatMap_map, List.flatMap_map]
    refine List.flatMap_congr fun z hz => ?_
    rw [names_relinked, names_relinked, hnames z hz]
  · rw [List.flatMap_map]
    intro q hq
    obtain ⟨z, hz, hq⟩ := List.mem_flatMap.mp hq
    rw [names_relinked, hnames z hz] at hq
    obtain ⟨s, hs, rfl⟩ := List.mem_map.mp hq
    exact (h.owned z hz).keyed s hs
  · rw [List.map_map, List.map_map]
    exact h.forward_symbol? hcallees q

/-- Assembling files whose kept edges are those of the full build gives its index. -/
theorem assemble_eq {fs gs : List IndexedFile} (hf : fs.mergeSort IndexedFile.le = zs.map (·.1))
    (hg : gs.mergeSort IndexedFile.le = zs.map (·.2)) {relink : Text → Bool}
    (himports : ∀ z ∈ zs, relink z.2.path = false →
      z.2.file.imports = ((built zs).link z.1.linkUnit).imports)
    (hcallees : ∀ z ∈ zs, relink z.2.path = false → ∀ s ∈ z.2.symbols,
      ((full zs).symbol? s.qualifiedName).map (·.callees) = some s.callees) :
    assemble gs relink = assemble fs fun _ => true := by
  rw [assemble_eq_map hf, assemble_eq_map hg]
  exact h.ofLinked_eq himports hcallees

end Renewal
end ProjectIndex
end AnnotationIndex
