import AnnotationIndex.Proofs.Assembly
import AnnotationIndex.Proofs.Statement

/-!
Files that are restored from the index of a full build. They are the files of the build with the edges that
linking found, and assembling them gives the index again, whichever of them are linked once more.
-/
namespace AnnotationIndex
open Text

theorem map_filterMap_eq {α β γ : Type} {f : α → Option β} {g : β → γ} {k : α → γ} {as : List α}
    (h : ∀ a ∈ as, ∃ b, f a = some b ∧ g b = k a) : (as.filterMap f).map g = as.map k := by
  induction as with
  | nil => rfl
  | cons a as ih =>
    obtain ⟨b, hb, hk⟩ := h a List.mem_cons_self
    rw [List.filterMap_cons_some hb, List.map_cons, List.map_cons, hk,
      ih fun a ha => h a (List.mem_cons_of_mem _ ha)]

namespace ProjectIndex
open IndexedFile

structure Indexed (fs : List IndexedFile) : Prop where
  owned : ∀ f ∈ fs, f.Owned
  paths : (fs.map (·.path)).Nodup
  keyed : ∀ f ∈ fs, f.path ≠ Table.droppedKey

def NamesAgree (fs : List IndexedFile) : Prop :=
  ∀ f ∈ fs, ∀ g ∈ fs, ∀ s ∈ f.symbols, ∀ s' ∈ g.symbols,
    s.qualifiedName = s'.qualifiedName → s.displayName = s'.displayName

instance (fs : List IndexedFile) : Decidable (NamesAgree fs) := by
  unfold NamesAgree
  infer_instance

abbrev ofIndexed (fs : List IndexedFile) : ProjectIndex := assemble fs fun _ => true

def linkedFiles (fs : List IndexedFile) : List IndexedFile :=
  (fs.mergeSort IndexedFile.le).map (relinked (tablesOf fs) fun _ => true)

section Records
variable {fs : List IndexedFile} (h : Indexed fs)

theorem mem_linkedFiles {g : IndexedFile} :
    g ∈ linkedFiles fs ↔ ∃ f ∈ fs, relinked (tablesOf fs) (fun _ => true) f = g := by
  simp [linkedFiles]

theorem paths_linkedFiles (fs : List IndexedFile) :
    ((linkedFiles fs).map (·.path)).Perm (fs.map (·.path)) := by
  have hp : (linkedFiles fs).map (·.path) = (fs.mergeSort IndexedFile.le).map (·.path) := by
    rw [linkedFiles, List.map_map]
    exact List.map_congr_left fun f _ => path_relinked _ _ f
  rw [hp]
  exact (List.mergeSort_perm fs _).map _

theorem ofIndexed_eq (fs : List IndexedFile) : ofIndexed fs = ofLinked (linkedFiles fs) := by
  rw [ofIndexed, assemble_eq_ofLinked]
  rfl

def linkedTables (fs : List IndexedFile) : LinkTables := ⟨(linkedFiles fs).map linkUnit⟩

theorem linkedTables_eq_full {zs : List (IndexedFile × IndexedFile)}
    (hfs : fs.mergeSort IndexedFile.le = zs.map (·.1)) : linkedTables fs = full zs := by
  rw [linkedTables, linkedFiles, tablesOf_eq_map hfs, hfs, List.map_map, List.map_map]
  rfl

include h

theorem recordable_linkedFiles : Recordable (linkedFiles fs) := by
  refine ⟨(paths_linkedFiles fs).nodup_iff.mpr h.paths, fun g hg => ?_, fun g hg s hs => ?_⟩
  · obtain ⟨f, hf, rfl⟩ := mem_linkedFiles.mp hg
    rw [path_relinked]
    exact h.keyed f hf
  · obtain ⟨f, hf, rfl⟩ := mem_linkedFiles.mp hg
    have hq : s.qualifiedName ∈ f.symbols.map (·.qualifiedName) :=
      names_relinked (tablesOf fs) (fun _ => true) f ▸ List.mem_map_of_mem hs
    obtain ⟨s', hs', he⟩ := List.mem_map.mp hq
    exact he ▸ (h.owned f hf).keyed s' hs'

/-- What the index records of a file is what linking made of it, and who imports it. -/
theorem file_ofIndexed {f : IndexedFile} (hf : f ∈ fs) :
    ∃ r, Table.get? (ofIndexed fs).files f.path = some r ∧
      r.forward = (relinked (tablesOf fs) (fun _ => true) f).file.forward := by
  have hg := (recordable_linkedFiles h).file (mem_linkedFiles.mpr ⟨f, hf, rfl⟩)
  rw [path_relinked] at hg
  rw [ofIndexed_eq, hg]
  exact ⟨_, rfl, rfl⟩

theorem hash_ofIndexed {f : IndexedFile} (hf : f ∈ fs) :
    Table.get? (ofIndexed fs).contentHashes f.path = some f.hash := by
  have hg := (recordable_linkedFiles h).hash (mem_linkedFiles.mpr ⟨f, hf, rfl⟩)
  rw [path_relinked, hash_relinked] at hg
  rw [ofIndexed_eq, hg]

theorem hash_ofIndexed_eq_none {p : Text} (hp : p ∉ fs.map (·.path)) :
    Table.get? (ofIndexed fs).contentHashes p = none := by
  rw [ofIndexed_eq]
  exact (recordable_linkedFiles h).hash_eq_none fun hm => hp ((paths_linkedFiles fs).mem_iff.mp hm)

/-- What the index records of a name is what its last symbol says, and who calls it. -/
theorem symbol_ofIndexed (q : Text) :
    (Table.get? (ofIndexed fs).symbols q).map SymbolRecord.forward =
      ((linkedTables fs).symbol? q).map SymbolRecord.forward := by
  rw [ofIndexed_eq]
  exact (recordable_linkedFiles h).symbol q

theorem keys_ofIndexed : ((ofIndexed fs).files.keys).Perm (fs.map (·.path)) := by
  rw [ofIndexed_eq]
  exact (recordable_linkedFiles h).keys.trans (paths_linkedFiles fs)

omit h in
/-- Linking changes nothing of a symbol but its callees. -/
theorem bare_linkedTables (fs : List IndexedFile) (q : Text) :
    ((linkedTables fs).symbol? q).map SymbolRecord.bare = ((tablesOf fs).symbol? q).map SymbolRecord.bare := by
  rw [linkedTables, linkedFiles, List.map_map]
  refine LinkTables.symbol?_map_congr (fun f _ => listed_relinked _ _ f) fun f _ => ?_
  rw [Function.comp_apply, symbol?_relinked, if_pos rfl, Option.map_map]
  rfl

theorem bare_ofIndexed (q : Text) : (Table.get? (ofIndexed fs).symbols q).map SymbolRecord.bare =
    ((tablesOf fs).symbol? q).map SymbolRecord.bare := by
  have hs := congrArg (Option.map SymbolRecord.bare) (symbol_ofIndexed h q)
  rw [Option.map_map, Option.map_map] at hs
  rw [← bare_linkedTables]
  exact hs

omit h in
theorem symbol?_tablesOf {q : Text} {s : SymbolRecord} (hs : (tablesOf fs).symbol? q = some s) :
    s.qualifiedName = q ∧ ∃ f ∈ fs, s ∈ f.symbols := by
  refine ⟨by simpa using List.find?_some hs, ?_⟩
  have hm := List.mem_reverse.mp (List.mem_of_find?_eq_some hs)
  simp only [tablesOf, List.mem_flatMap, List.mem_map, List.mem_mergeSort] at hm
  obtain ⟨u, ⟨f, hf, rfl⟩, hs⟩ := hm
  exact ⟨f, hf, hs⟩

/-- Every symbol is recorded under its qualified name. -/
theorem recorded {f : IndexedFile} (hf : f ∈ fs) {s : SymbolRecord} (hs : s ∈ f.symbols) :
    ∃ s', Table.get? (ofIndexed fs).symbols s.qualifiedName = some s' ∧ s'.qualifiedName = s.qualifiedName ∧
      ∃ g ∈ fs, ∃ s'' ∈ g.symbols, s''.qualifiedName = s.qualifiedName ∧ s''.displayName = s'.displayName := by
  have hlisted : ∃ u ∈ (tablesOf fs).units, s.qualifiedName ∈ u.listed :=
    ⟨f.linkUnit, List.mem_map_of_mem (List.mem_mergeSort.mpr hf), List.mem_map_of_mem hs⟩
  obtain ⟨s'', hlast⟩ := LinkTables.exists_symbol?.mpr hlisted
  obtain ⟨hname, g, hg, hs''⟩ := symbol?_tablesOf hlast
  have hb := bare_ofIndexed h s.qualifiedName
  rw [hlast, Option.map_some, Option.map_eq_some_iff] at hb
  obtain ⟨s', hs', hbare⟩ := hb
  have hq : s'.qualifiedName = s''.qualifiedName := congrArg (fun s => s.qualifiedName) hbare
  have hd : s'.bare.displayName = s''.bare.displayName := congrArg SymbolRecord.displayName hbare
  exact ⟨s', hs', hq.trans hname, g, hg, s'', hs'', hname, hd.symm⟩

end Records

section Restored
variable {fs : List IndexedFile} (h : Indexed fs) {f g : IndexedFile}
include h

/-- A file is restored from what the index records of it. -/
theorem restore?_ofIndexed (hf : f ∈ fs) :
    ∃ r, r.forward = (relinked (tablesOf fs) (fun _ => true) f).file.forward ∧
      restore? (ofIndexed fs) f.path = some (ofRecord (ofIndexed fs) f.path f.hash r) := by
  obtain ⟨r, hr, hforward⟩ := file_ofIndexed h hf
  refine ⟨r, hforward, ?_⟩
  rw [restore?, hr, hash_ofIndexed h hf]
  rfl

/-- A restored file is the file of the build with the edges that linking found. -/
theorem restored (hf : f ∈ fs) (hg : restore? (ofIndexed fs) f.path = some g) :
    g.path = f.path ∧ g.hash = f.hash ∧ g.imports = f.imports ∧
      g.file.forward = (relinked (tablesOf fs) (fun _ => true) f).file.forward ∧
      g.symbols = f.symbols.filterMap fun s => Table.get? (ofIndexed fs).symbols s.qualifiedName := by
  obtain ⟨r, hr, hrestore⟩ := restore?_ofIndexed h hf
  obtain rfl := Option.some.inj (hrestore.symm.trans hg)
  have himports : r.imports = f.imports.flatMap ((tablesOf fs).linkImport f.path) :=
    congrArg (fun r => r.imports) hr
  have hsymbols : r.symbols = f.symbols.map (·.qualifiedName) :=
    (congrArg (fun r => r.symbols) hr).trans (h.owned f hf).listed.symm
  refine ⟨rfl, rfl, ?_, hr, ?_⟩
  · rw [ofRecord, himports, StatementTargets.ofEntries_linkImport, List.map_map]
    simp [Function.comp_def]
  · rw [ofRecord, hsymbols, List.filterMap_map]
    rfl

/-- The symbols of a restored file are records of the index. -/
theorem restored_symbols (hf : f ∈ fs) (hg : restore? (ofIndexed fs) f.path = some g) {s : SymbolRecord}
    (hs : s ∈ g.symbols) : Table.get? (ofIndexed fs).symbols s.qualifiedName = some s := by
  rw [(restored h hf hg).2.2.2.2, List.mem_filterMap] at hs
  obtain ⟨s₀, hs₀, hs⟩ := hs
  obtain ⟨s', hs', hname, _⟩ := recorded h hf hs₀
  obtain rfl := Option.some.inj (hs'.symm.trans hs)
  rw [hname]
  exact hs

theorem restored_imports (hf : f ∈ fs) (hg : restore? (ofIndexed fs) f.path = some g) :
    g.file.imports = ((tablesOf fs).link f.linkUnit).imports :=
  congrArg (fun r => r.imports) (restored h hf hg).2.2.2.1

/-- A restored file differs from the file of the build at most in edges and records. -/
theorem alike_restored (hn : NamesAgree fs) (hf : f ∈ fs) (hg : restore? (ofIndexed fs) f.path = some g) :
    f.Alike g := by
  obtain ⟨hpath, hhash, himports, hfile, hsymbols⟩ := restored h hf hg
  refine ⟨hpath.symm, hhash.symm, ?_, himports.symm, ?_⟩
  · rw [forward_relinked] at hfile
    exact (congrArg FileRecord.bare hfile).symm
  · rw [hsymbols]
    refine (map_filterMap_eq fun s hs => ?_).symm
    obtain ⟨s', hs', hname, f', hf', s'', hs'', hname', hshown⟩ := recorded h hf hs
    have hd : s'.displayName = s.displayName := hshown.symm.trans (hn f' hf' f hf s'' hs'' s hs hname')
    exact ⟨s', hs', by rw [hname, hd]⟩

omit h in
theorem path_of_restore? {r : ProjectIndex} {p : Text} (hg : restore? r p = some g) : g.path = p := by
  simp only [restore?, Option.bind_eq_bind, Option.bind_eq_some_iff] at hg
  obtain ⟨file, _, hash, _, hg⟩ := hg
  exact (congrArg IndexedFile.path (Option.some.inj hg)).symm

omit h in
theorem mem_restoreAll {r : ProjectIndex} (hg : g ∈ restoreAll r) : restore? r g.path = some g := by
  obtain ⟨p, _, hg⟩ := List.mem_filterMap.mp hg
  rw [path_of_restore? hg]
  exact hg

omit h in
theorem mem_restoreAll_iff {r : ProjectIndex} : g ∈ restoreAll r ↔ restore? r g.path = some g := by
  refine ⟨mem_restoreAll, fun hg => List.mem_filterMap.mpr ⟨g.path, ?_, hg⟩⟩
  rw [restore?, Option.bind_eq_bind, Option.bind_eq_some_iff] at hg
  obtain ⟨r, hr, _⟩ := hg
  exact Table.get?_isSome.mp (by rw [hr, Option.isSome_some])

/-- Every file of the build is restored, and no other. -/
theorem paths_restoreAll : ((restoreAll (ofIndexed fs)).map (·.path)).Perm (fs.map (·.path)) := by
  have hkeys : (restoreAll (ofIndexed fs)).map (·.path) = (ofIndexed fs).files.keys.map id := by
    refine map_filterMap_eq fun k hk => ?_
    obtain ⟨f, hf, rfl⟩ := List.mem_map.mp ((keys_ofIndexed h).mem_iff.mp hk)
    obtain ⟨r, _, hr⟩ := restore?_ofIndexed h hf
    exact ⟨_, hr, rfl⟩
  rw [hkeys, List.map_id]
  exact keys_ofIndexed h

end Restored

/-- The index of a full build follows from the files, in whatever order they are given. -/
theorem ofIndexed_congr {fs fs' : List IndexedFile} (h : Indexed fs) (h' : Indexed fs') (hm : ∀ f, f ∈ fs ↔ f ∈ fs') :
    ofIndexed fs = ofIndexed fs' := by
  have hsorted : ∀ fs : List IndexedFile,
      (fs.mergeSort IndexedFile.le).Pairwise fun f g => IndexedFile.le f g = true := fun fs =>
    List.pairwise_mergeSort (fun a b c => Text.le_trans a.path b.path c.path)
      (fun a b => Text.le_total a.path b.path) fs
  have hperm : fs.Perm fs' :=
    (List.perm_ext_iff_of_nodup (List.Nodup.of_map _ h.paths) (List.Nodup.of_map _ h'.paths)).mpr hm
  have heq : fs.mergeSort IndexedFile.le = fs'.mergeSort IndexedFile.le := by
    refine ((List.mergeSort_perm fs _).trans (hperm.trans (List.mergeSort_perm fs' _).symm)).eq_of_pairwise
      (fun f g hf hg hfg hgf => ?_) (hsorted fs) (hsorted fs')
    have hg : g ∈ fs := (hm g).mpr (List.mem_mergeSort.mp hg)
    exact List.inj_on_of_nodup_map h.paths (List.mem_mergeSort.mp hf) hg (Text.le_antisymm hfg hgf)
  rw [ofIndexed, ofIndexed, assemble_eq_ofLinked, assemble_eq_ofLinked, tablesOf, tablesOf, heq]

section Fixpoint
variable {fs : List IndexedFile}

theorem renewal_restoreAll (h : Indexed fs) (hn : NamesAgree fs) {zs : List (IndexedFile × IndexedFile)}
    (hfs : fs.mergeSort IndexedFile.le = zs.map (·.1))
    (hz : ∀ z ∈ zs, z.1 ∈ fs ∧ restore? (ofIndexed fs) z.1.path = some z.2) : Renewal zs := by
  refine ⟨fun z hm => alike_restored h hn (hz z hm).1 (hz z hm).2, fun z hm => h.owned z.1 (hz z hm).1,
    nodup_of_sorted hfs h.paths, fun q => ?_⟩
  have hheld : ∀ s, (held zs).symbol? q = some s → Table.get? (ofIndexed fs).symbols q = some s := by
    intro s hs
    rw [LinkTables.symbol?_map, Option.bind_eq_some_iff] at hs
    obtain ⟨z, hfind, hs⟩ := hs
    have hm : z ∈ zs := List.mem_reverse.mp (List.mem_of_find?_eq_some hfind)
    obtain ⟨hmem, hname⟩ := LinkUnit.symbol?_mem hs
    exact hname ▸ restored_symbols h (hz z hm).1 (hz z hm).2 hmem
  cases hs : (held zs).symbol? q with
  | some s => rw [← tablesOf_eq_built hfs, ← bare_ofIndexed h, hheld s hs]
  | none =>
    have hnone : (built zs).symbol? q = none := by
      refine Option.eq_none_iff_forall_ne_some.mpr fun s hb => ?_
      obtain ⟨u, hu, hq⟩ := LinkTables.exists_symbol?.mp ⟨s, hb⟩
      obtain ⟨z, hm, rfl⟩ := List.mem_map.mp hu
      have hl : z.1.linkUnit.listed = z.2.linkUnit.listed :=
        (alike_restored h hn (hz z hm).1 (hz z hm).2).listed_eq
      have hmem : z.2.linkUnit ∈ (held zs).units := List.mem_map.mpr ⟨z, hm, rfl⟩
      obtain ⟨s', hs'⟩ := LinkTables.exists_symbol?.mpr ⟨z.2.linkUnit, hmem, hl ▸ hq⟩
      simp [hs] at hs'
    rw [hnone]

/-- Restoring an index and assembling it again gives the index, whichever files are linked again. -/
theorem assemble_restoreAll (h : Indexed fs) (hn : NamesAgree fs) (relink : Text → Bool) :
    assemble (restoreAll (ofIndexed fs)) relink = ofIndexed fs := by
  obtain ⟨zs, hfs, hgs, hpairs⟩ := exists_pairs (paths_restoreAll h)
  have hz : ∀ z ∈ zs, z.1 ∈ fs ∧ restore? (ofIndexed fs) z.1.path = some z.2 := by
    intro z hm
    obtain ⟨hf, hg, hpath⟩ := hpairs z hm
    exact ⟨hf, hpath ▸ mem_restoreAll hg⟩
  refine (renewal_restoreAll h hn hfs hz).assemble_eq hfs hgs (fun z hm _ => ?_) fun z hm _ s hs => ?_
  · rw [← tablesOf_eq_built hfs]
    exact restored_imports h (hz z hm).1 (hz z hm).2
  · have hrecord := restored_symbols h (hz z hm).1 (hz z hm).2 hs
    have hforward := congrArg (Option.map SymbolRecord.callees) (symbol_ofIndexed h s.qualifiedName)
    rw [hrecord, Option.map_map, Option.map_map, linkedTables_eq_full hfs] at hforward
    exact hforward.symm

/-- The index of a project is that of its indexed files. -/
theorem exists_indexed {rules : IndexRules} {files : List (Text × Text)} {r : ProjectIndex}
    (h : ofFiles rules files = .ok r) :
    ∃ fs, files.mapM (fun e => ofText rules e.1 e.2) = .ok fs ∧ ofIndexed fs = r := by
  have hbind : ofFiles rules files =
      (files.mapM fun e => ofText rules e.1 e.2) >>= fun fs => .ok (ofIndexed fs) := rfl
  rw [hbind, bind_eq_ok] at h
  obtain ⟨fs, hfs, h⟩ := h
  exact ⟨fs, hfs, Except.ok.inj h⟩

section Making
variable {rules : IndexRules} {files : List (Text × Text)}

theorem paths_of_mapM (h : files.mapM (fun (path, text) => ofText rules path text) = .ok fs) :
    fs.map (·.path) = files.map (·.1) :=
  map_eq_of_mapM_ok h fun _ _ hf => (owned_ofText hf).2.1

/-- An indexed file is made of a text of the project, under its own path. -/
theorem exists_text_of_mapM (h : files.mapM (fun (path, text) => ofText rules path text) = .ok fs) {f : IndexedFile}
    (hf : f ∈ fs) : ∃ text, (f.path, text) ∈ files ∧ ofText rules f.path text = .ok f := by
  obtain ⟨⟨path, text⟩, hmem, hok⟩ := mem_of_mapM_ok h hf
  obtain rfl : f.path = path := (owned_ofText hok).2.1
  exact ⟨text, hmem, hok⟩

theorem owned_of_mapM (h : files.mapM (fun (path, text) => ofText rules path text) = .ok fs) : ∀ f ∈ fs, f.Owned := by
  intro f hf
  obtain ⟨_, _, hok⟩ := exists_text_of_mapM h hf
  exact (owned_ofText hok).1

theorem indexed_of_mapM (hp : (files.map (·.1)).Nodup) (hk : ∀ e ∈ files, e.1 ≠ Table.droppedKey)
    (h : files.mapM (fun (path, text) => ofText rules path text) = .ok fs) : Indexed fs := by
  refine ⟨owned_of_mapM h, paths_of_mapM h ▸ hp, fun f hf => ?_⟩
  obtain ⟨_, hmem, _⟩ := exists_text_of_mapM h hf
  exact hk _ hmem

end Making

/-- Restoring the index of a project and assembling it again gives the same index, whichever files are linked
again, if symbols with the same qualified name have the same name to show. -/
theorem assemble_restored (rules : IndexRules) (files : List (Text × Text)) (hp : (files.map (·.1)).Nodup)
    (hk : ∀ e ∈ files, e.1 ≠ Table.droppedKey)
    (hn : ∀ fs, files.mapM (fun (path, text) => ofText rules path text) = .ok fs → NamesAgree fs)
    (r : ProjectIndex) (hr : ofFiles rules files = .ok r) (relink : Text → Bool) :
    assemble (restoreAll r) relink = r := by
  obtain ⟨fs, hfs, rfl⟩ := exists_indexed hr
  exact assemble_restoreAll (indexed_of_mapM hp hk hfs) (hn fs hfs) relink

def indexAll (rules : IndexRules) (files : List (Text × Text)) : List IndexedFile :=
  (files.mapM fun (path, text) => ofText rules path text).toOption.getD []

theorem indexAll_eq {rules : IndexRules} {files : List (Text × Text)}
    (h : (files.mapM fun (path, text) => ofText rules path text).isOk = true) :
    files.mapM (fun (path, text) => ofText rules path text) = .ok (indexAll rules files) := by
  obtain ⟨fs, hfs⟩ := exists_of_isOk h
  rw [indexAll, hfs]
  rfl

theorem assemble_eq_of_sorted (h : fs.Pairwise fun f g => IndexedFile.le f g = true) (relink : Text → Bool) :
    assemble fs relink = ofLinked (fs.map (relinked ⟨fs.map linkUnit⟩ relink)) := by
  rw [assemble_eq_ofLinked, tablesOf, List.mergeSort_of_pairwise h]

/-- The index of files that come in order. -/
theorem ofFiles_eq_of_sorted {rules : IndexRules} {files : List (Text × Text)}
    (hok : (files.mapM fun e => ofText rules e.1 e.2).isOk = true)
    (hsorted : (indexAll rules files).Pairwise fun f g => IndexedFile.le f g = true) : ofFiles rules files =
      .ok (ofLinked ((indexAll rules files).map (relinked ⟨(indexAll rules files).map linkUnit⟩ fun _ => true))) := by
  rw [ofFiles, indexAll_eq hok, ← assemble_eq_of_sorted hsorted]
  rfl

def builtInRules : IndexRules := ⟨Extractor.builtIn, ⟨.permissive, Provenance.defaultThreshold, []⟩⟩

def scriptRules : IndexRules := ⟨[Extractor.script], ⟨.permissive, Provenance.defaultThreshold, []⟩⟩

def twoFiles : List (Text × Text) := [
  ("a.ts", "import { f } from './b';\nfunction g() { f(); }\n"),
  ("b.ts", "export function f() {}\n")]

theorem assemble_restored_twoFiles : ∃ r, ofFiles scriptRules twoFiles = .ok r ∧
    assemble (restoreAll r) (fun p => p == ("a.ts" : Text)) = r := by
  have hfacts : (twoFiles.mapM fun (path, text) => ofText scriptRules path text).isOk = true ∧
      NamesAgree (indexAll scriptRules twoFiles) := by decide +kernel
  have hfs := indexAll_eq hfacts.1
  have hr : ofFiles scriptRules twoFiles = .ok (ofIndexed (indexAll scriptRules twoFiles)) := by
    rw [ofFiles, hfs]
    rfl
  refine ⟨_, hr, assemble_restored scriptRules twoFiles (by decide) (by decide) (fun fs h => ?_) _ hr _⟩
  obtain rfl := Except.ok.inj (hfs.symm.trans h)
  exact hfacts.2

def recordedCallees (r : ProjectIndex) (q : Text) : Option (List Text) :=
  (Table.get? r.symbols q).map (·.callees)

theorem ne_of_recordedCallees {r r' : ProjectIndex} (q : Text)
    (h : recordedCallees r q ≠ recordedCallees r' q) : r ≠ r' := by
  rintro rfl
  exact h rfl

def sharedName : List (Text × Text) := [
  ("a.ts", "class C { [/b.ts:D.[/]/]() {} }\n// @acp:calls C.[/b.ts:D.[/]/]\nfunction g() {}\n"),
  ("a.ts:C.[/b.ts", "class D { [/]/]() {} }\n")]

/-- The first of two methods with one qualified name is not restored, and a call of it is lost. -/
theorem assemble_restored_sharedName :
    (sharedName.map (·.1)).Nodup ∧ (∀ e ∈ sharedName, e.1 ≠ Table.droppedKey) ∧
      ∃ r, ofFiles scriptRules sharedName = .ok r ∧
        assemble (restoreAll r) (fun p => p == ("a.ts" : Text)) ≠ r := by
  have hfacts :
      let fs := indexAll scriptRules sharedName
      let r := ofLinked (fs.map (relinked ⟨fs.map linkUnit⟩ fun _ => true))
      let gs := restoreAll r
      let r' := ofLinked (gs.map (relinked ⟨gs.map linkUnit⟩ fun p => p == ("a.ts" : Text)))
      (sharedName.mapM fun (path, text) => ofText scriptRules path text).isOk = true ∧
        fs.Pairwise (fun f g => IndexedFile.le f g = true) ∧ gs.Pairwise (fun f g => IndexedFile.le f g = true) ∧
        recordedCallees r' "a.ts:g" ≠ recordedCallees r "a.ts:g" := by
    decide +kernel
  obtain ⟨hok, hsorted, hsorted', hcallees⟩ := hfacts
  have hfs := indexAll_eq hok
  refine ⟨by decide, by decide, ofIndexed (indexAll scriptRules sharedName), ?_, ?_⟩
  · rw [ofFiles, hfs]
    rfl
  · rw [ofIndexed, assemble_eq_of_sorted hsorted, assemble_eq_of_sorted hsorted']
    exact ne_of_recordedCallees "a.ts:g" hcallees

end Fixpoint
end ProjectIndex
end AnnotationIndex
