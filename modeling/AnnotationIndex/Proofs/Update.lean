import AnnotationIndex.Proofs.Sight

/-!
Updating. The files of an updated project are those that have not changed, restored from the previous index, and those
that have, indexed anew. The updated index is that of a full build unless a file that exports again what it imports now
names other files, and a file that sees it is not linked again although its edges have changed.
-/
namespace AnnotationIndex
open Text

namespace ProjectIndex
open IndexedFile

def Retargeted (r r' : ProjectIndex) (path : Text) : Prop :=
  ∃ f f', Table.get? r.files path = some f ∧ Table.get? r'.files path = some f' ∧
    (StatementTargets.ofEntries f.imports).map (·.targets) ≠ (StatementTargets.ofEntries f'.imports).map (·.targets)

def SameEdges (r r' : ProjectIndex) (path : Text) : Prop :=
  ∀ f f', Table.get? r.files path = some f → Table.get? r'.files path = some f' →
    f.imports = f'.imports ∧ ∀ q ∈ f.symbols, recordedCallees r q = recordedCallees r' q

section Edges
variable {fs fs' : List IndexedFile} {f : IndexedFile}

theorem imports_ofIndexed (h : Indexed fs) (hf : f ∈ fs) {r : FileRecord}
    (hr : Table.get? (ofIndexed fs).files f.path = some r) : r.imports = ((tablesOf fs).link f.linkUnit).imports := by
  obtain ⟨r', hr', hforward⟩ := file_ofIndexed h hf
  obtain rfl := Option.some.inj (hr'.symm.trans hr)
  exact congrArg (fun r => r.imports) hforward

theorem symbols_ofIndexed (h : Indexed fs) (hf : f ∈ fs) {r : FileRecord}
    (hr : Table.get? (ofIndexed fs).files f.path = some r) : r.symbols = f.linkUnit.listed := by
  obtain ⟨r', hr', hforward⟩ := file_ofIndexed h hf
  obtain rfl := Option.some.inj (hr'.symm.trans hr)
  exact (congrArg (fun r => r.symbols) hforward).trans (h.owned f hf).listed.symm

/-- The statements of a file and what they name are read back from what linking made of them. -/
theorem ofEntries_link (h : Regular fs) (f : IndexedFile) :
    StatementTargets.ofEntries ((tablesOf fs).link f.linkUnit).imports =
      f.imports.map fun s => ⟨s, (tablesOf fs).targets s.request f.path⟩ := by
  have himports : ((tablesOf fs).link f.linkUnit).imports = f.imports.flatMap ((tablesOf fs).linkImport f.path) := rfl
  rw [himports, StatementTargets.ofEntries_linkImport]
  refine List.map_congr_left fun s _ => ?_
  rw [List.filter_eq_self.mpr fun target ht => ?_]
  obtain ⟨g, hg, rfl⟩ := exists_of_targets ht
  simpa using h.inside g hg

/-- The callees that an index records are those that linking the file of the symbol found. -/
theorem recordedCallees_ofIndexed (h : Regular fs) (hf : f ∈ fs) {q : Text} (hq : q ∈ f.linkUnit.listed) :
    recordedCallees (ofIndexed fs) q = some ((((tablesOf fs).link f.linkUnit).callees.lookup q).getD []) := by
  have hforward := congrArg (Option.map fun s => s.callees) (symbol_ofIndexed h.toIndexed q)
  rw [Option.map_map, Option.map_map] at hforward
  have hapart : (linkedTables fs).NamesApart := by
    rw [linkedTables, linkedFiles, List.map_map]
    exact LinkTables.namesApart_map (fun f _ => (listed_relinked (tablesOf fs) (fun _ => true) f).symm) h.namesApart
  have hq' : q ∈ (relinked (tablesOf fs) (fun _ => true) f).linkUnit.listed := by rwa [listed_relinked]
  have hsymbol : (linkedTables fs).symbol? q = _ :=
    LinkTables.symbol?_of_listed hapart (List.mem_map_of_mem (mem_linkedFiles.mpr ⟨f, hf, rfl⟩)) hq'
  obtain ⟨s, hs⟩ := LinkUnit.exists_symbol? hq
  rw [hsymbol, symbol?_relinked, if_pos rfl, hs] at hforward
  refine Eq.trans hforward ?_
  rw [← (LinkUnit.symbol?_mem hs).2]
  rfl

/-- Files that link the same have the same edges in the indexes. -/
theorem sameEdges_of_link_eq (h : Regular fs) (h' : Regular fs') (hf : f ∈ fs) (hf' : f ∈ fs')
    (hlink : (tablesOf fs).link f.linkUnit = (tablesOf fs').link f.linkUnit) :
    SameEdges (ofIndexed fs) (ofIndexed fs') f.path := by
  intro r r' hr hr'
  refine ⟨?_, fun q hq => ?_⟩
  · rw [imports_ofIndexed h.toIndexed hf hr, imports_ofIndexed h'.toIndexed hf' hr', hlink]
  · rw [symbols_ofIndexed h.toIndexed hf hr] at hq
    rw [recordedCallees_ofIndexed h hf hq, recordedCallees_ofIndexed h' hf' hq, hlink]

/-- The imports of a file that both indexes show with the same targets name the same files. -/
theorem targets_eq_of_not_retargeted (h : Regular fs) (h' : Regular fs') (hf : f ∈ fs) (hf' : f ∈ fs')
    (hsame : ¬ Retargeted (ofIndexed fs) (ofIndexed fs') f.path) :
    ∀ s ∈ f.imports, (tablesOf fs).targets s.request f.path = (tablesOf fs').targets s.request f.path := by
  obtain ⟨r, hr, _⟩ := file_ofIndexed h.toIndexed hf
  obtain ⟨r', hr', _⟩ := file_ofIndexed h'.toIndexed hf'
  have heq : (StatementTargets.ofEntries r.imports).map (·.targets) =
      (StatementTargets.ofEntries r'.imports).map (·.targets) :=
    Classical.byContradiction fun hne => hsame ⟨r, r', hr, hr', hne⟩
  rw [imports_ofIndexed h.toIndexed hf hr, imports_ofIndexed h'.toIndexed hf' hr', ofEntries_link h, ofEntries_link h',
    List.map_map, List.map_map] at heq
  exact List.map_inj_left.mp heq

end Edges
end ProjectIndex

namespace UpdateUnits
open ProjectIndex IndexedFile

/-- The files of an update between two states of a project: those that have not changed as they are restored from the
index, and those that have as they are indexed now. -/
structure Holds (u : UpdateUnits) (fs fs' : List IndexedFile) : Prop where
  edited : Edited fs fs' u.changed
  previous : u.previous = ofIndexed fs
  distinct : (u.units.map (·.path)).Nodup
  mem_units : ∀ g, g ∈ u.units ↔
    g.path ∉ u.changed ∧ restore? (ofIndexed fs) g.path = some g ∨ g.path ∈ u.reindexed ∧ g ∈ fs'
  reindexed : ∀ f ∈ fs', f.path ∈ u.changed → f.path ∈ u.reindexed

structure Pair (u : UpdateUnits) (fs fs' : List IndexedFile) (z : IndexedFile × IndexedFile) : Prop where
  mem : z.1 ∈ fs'
  held : z.2 ∈ u.units
  path : z.2.path = z.1.path
  cases : z.1.path ∉ u.changed ∧ z.1 ∈ fs ∧ restore? (ofIndexed fs) z.1.path = some z.2 ∨
    z.1.path ∈ u.reindexed ∧ z.2 = z.1

namespace Holds
variable {u : UpdateUnits} {fs fs' : List IndexedFile} (h : u.Holds fs fs') {z : IndexedFile × IndexedFile}
include h

theorem pair_of_path (hmem : z.1 ∈ fs') (hheld : z.2 ∈ u.units) (hpath : z.1.path = z.2.path) : u.Pair fs fs' z := by
  refine ⟨hmem, hheld, hpath.symm, ?_⟩
  rw [hpath]
  cases (h.mem_units z.2).mp hheld with
  | inl hk => exact .inl ⟨hk.1, (h.edited.kept z.1 (hpath ▸ hk.1)).mpr hmem, hk.2⟩
  | inr hr => exact .inr ⟨hr.1, List.inj_on_of_nodup_map h.edited.after.paths hr.2 hmem hpath.symm⟩

/-- The update holds exactly the files of the updated project. -/
theorem perm_paths : (u.units.map (·.path)).Perm (fs'.map (·.path)) := by
  refine (List.perm_ext_iff_of_nodup h.distinct h.edited.after.paths).mpr fun p => ⟨fun hp => ?_, fun hp => ?_⟩
  · obtain ⟨g, hg, rfl⟩ := List.mem_map.mp hp
    cases (h.mem_units g).mp hg with
    | inr hr => exact List.mem_map_of_mem hr.2
    | inl hk =>
      have hkey : g.path ∈ (ofIndexed fs).files.keys := by
        rw [restore?, Option.bind_eq_bind, Option.bind_eq_some_iff] at hk
        obtain ⟨r, hr, _⟩ := hk.2
        exact Table.get?_isSome.mp (by rw [hr, Option.isSome_some])
      obtain ⟨f, hf, hpath⟩ := List.mem_map.mp ((keys_ofIndexed h.edited.before.toIndexed).mem_iff.mp hkey)
      exact hpath ▸ List.mem_map_of_mem ((h.edited.kept f (hpath ▸ hk.1)).mp hf)
  · obtain ⟨f, hf, rfl⟩ := List.mem_map.mp hp
    by_cases hc : f.path ∈ u.changed
    · exact List.mem_map_of_mem ((h.mem_units f).mpr (.inr ⟨h.reindexed f hf hc, hf⟩))
    · obtain ⟨r, _, hr⟩ := restore?_ofIndexed h.edited.before.toIndexed ((h.edited.kept f hc).mpr hf)
      refine List.mem_map.mpr ⟨ofRecord (ofIndexed fs) f.path f.hash r, ?_, rfl⟩
      exact (h.mem_units _).mpr (.inl ⟨hc, hr⟩)

theorem exists_pairs : ∃ zs : List (IndexedFile × IndexedFile), fs'.mergeSort IndexedFile.le = zs.map (·.1) ∧
    u.units.mergeSort IndexedFile.le = zs.map (·.2) ∧ ∀ z ∈ zs, u.Pair fs fs' z := by
  obtain ⟨zs, hfs, hunits, hz⟩ := ProjectIndex.exists_pairs h.perm_paths
  refine ⟨zs, hfs, hunits, fun z hm => ?_⟩
  obtain ⟨hf, hg, hpath⟩ := hz z hm
  exact h.pair_of_path hf hg hpath

theorem alike (hz : u.Pair fs fs' z) : z.1.Alike z.2 := by
  cases hz.cases with
  | inl hk => exact alike_restored h.edited.before.toIndexed h.edited.before.namesAgree hk.2.1 hk.2.2
  | inr hr => rw [hr.2]; exact ⟨rfl, rfl, rfl, rfl, rfl⟩

/-- A symbol that the update holds is but for its edges the one of the updated project. -/
theorem bare_symbol? (hz : u.Pair fs fs' z) (q : Text) :
    (z.1.linkUnit.symbol? q).map SymbolRecord.bare = (z.2.linkUnit.symbol? q).map SymbolRecord.bare := by
  cases hz.cases with
  | inr hr => rw [hr.2]
  | inl hk =>
    have hlisted : z.1.linkUnit.listed = z.2.linkUnit.listed := (h.alike hz).listed_eq
    by_cases hl : q ∈ z.1.linkUnit.listed
    · obtain ⟨s, hs⟩ := LinkUnit.exists_symbol? (hlisted ▸ hl)
      obtain ⟨hm, hq⟩ := LinkUnit.symbol?_mem hs
      have hrecord := restored_symbols h.edited.before.toIndexed hk.2.1 hk.2.2 hm
      rw [← h.edited.before.symbol? hk.2.1 hl, ← bare_ofIndexed h.edited.before.toIndexed, ← hq, hrecord, hq, hs]
    · rw [LinkUnit.symbol?_eq_none.mpr hl, LinkUnit.symbol?_eq_none.mpr (hlisted ▸ hl)]

theorem renewal {zs : List (IndexedFile × IndexedFile)} (hfs : fs'.mergeSort IndexedFile.le = zs.map (·.1))
    (hz : ∀ z ∈ zs, u.Pair fs fs' z) : Renewal zs := by
  refine ⟨fun z hm => h.alike (hz z hm), fun z hm => h.edited.after.owned z.1 (hz z hm).mem,
    nodup_of_sorted hfs h.edited.after.paths, fun q => ?_⟩
  exact LinkTables.symbol?_map_congr (fun z hm => (h.alike (hz z hm)).listed_eq) fun z hm =>
    h.bare_symbol? (hz z hm) q

/-- What a request names is found in the files that the update holds as in those of the updated project. -/
theorem targets_eq (r : ModuleRequest) (source : Text) :
    u.tables.targets r source = (tablesOf fs').targets r source := by
  obtain ⟨zs, hfs, hunits, hz⟩ := h.exists_pairs
  have hperm : u.tables.units.Perm (zs.map fun z => z.2.linkUnit) := by
    have hsorted := (List.mergeSort_perm u.units IndexedFile.le).symm.map linkUnit
    rw [hunits, List.map_map] at hsorted
    exact hsorted
  have hdistinct : (u.tables.units.map (·.path)).Nodup := by
    rw [tables, List.map_map]
    exact h.distinct
  have hsorted : u.tables.targets r source = (⟨zs.map fun z => z.2.linkUnit⟩ : LinkTables).targets r source :=
    LinkTables.targets_perm hperm hdistinct r source
  rw [tablesOf_eq_map hfs, hsorted]
  exact LinkTables.targets_map_congr (fun z hm => (h.alike (hz z hm)).view_eq.symm) r source

theorem unit?_eq {g : IndexedFile} (hg : g ∈ u.units) : u.unit? g.path = some g :=
  find?_eq_of_nodup h.distinct hg

end Holds

/-- A file that is not linked again has not changed, sees no change, shares no package with a changed file, and its
imports name the files that they named. -/
theorem of_not_affected {u : UpdateUnits} {g : IndexedFile} (hg : g ∈ u.units) (hn : g.path ∉ u.affected) :
    g.path ∉ u.reindexed ∧ g.path ∉ u.previous.reach u.changed ∧ g.path ∉ u.siblings ∧ u.isRetargeted g = false := by
  rw [affected, List.mem_append, not_or] at hn
  obtain ⟨hknown, hretargeted⟩ := hn
  have hsplit : g.path ∉ u.reindexed ∧ g.path ∉ u.previous.reach u.changed ∧ g.path ∉ u.siblings := by
    simpa [not_or] using hknown
  refine ⟨hsplit.1, hsplit.2.1, hsplit.2.2, Bool.eq_false_iff.mpr fun hr => hretargeted ?_⟩
  refine List.mem_map_of_mem (List.mem_filter.mpr ⟨hg, ?_⟩)
  rw [hr, Bool.and_true, Bool.not_eq_true', List.elem_eq_mem, decide_eq_false_iff_not]
  exact hknown

/-- Such a file is held as it is restored. -/
theorem Pair.kept {u : UpdateUnits} {fs fs' : List IndexedFile} {z : IndexedFile × IndexedFile} (hz : u.Pair fs fs' z)
    (hn : z.2.path ∉ u.affected) :
    z.1.path ∉ u.changed ∧ z.1 ∈ fs ∧ restore? (ofIndexed fs) z.1.path = some z.2 := by
  have hfresh := (of_not_affected hz.held hn).1
  rw [hz.path] at hfresh
  exact hz.cases.resolve_right fun hr => hfresh hr.1

namespace Holds
variable {u : UpdateUnits} {fs fs' : List IndexedFile} (h : u.Holds fs fs') {z : IndexedFile × IndexedFile}
include h

theorem languageOf_eq {g : IndexedFile} (hg : g ∈ fs ∨ g ∈ fs') (hc : g.path ∈ u.changed) :
    u.languageOf g.path = g.file.language := by
  unfold languageOf
  cases hu : u.unit? g.path with
  | some g' =>
    have hpath : g'.path = g.path := by simpa using List.find?_some hu
    have hlanguage : g.file.language = Language.ofPath g.path := by
      cases hg with
      | inl hg => exact h.edited.before.language g hg
      | inr hg => exact h.edited.after.language g hg
    cases (h.mem_units g').mp (List.mem_of_find?_eq_some hu) with
    | inl hk => exact absurd (hpath ▸ hc) hk.1
    | inr hr => exact (h.edited.after.language g' hr.2).trans (hpath ▸ hlanguage.symm)
  | none =>
    have hold : g ∈ fs := by
      refine hg.resolve_right fun hnew => ?_
      have hheld := (h.mem_units g).mpr (.inr ⟨h.reindexed g hnew hc, hnew⟩)
      rw [h.unit?_eq hheld] at hu
      exact absurd hu (by simp)
    obtain ⟨r, hr, hforward⟩ := file_ofIndexed h.edited.before.toIndexed hold
    rw [h.previous, hr]
    exact congrArg (fun r => r.language) (hforward.trans (forward_relinked _ _ g))

theorem language_eq (hz : u.Pair fs fs' z) : z.1.file.language = z.2.file.language :=
  congrArg (fun r => r.language) (h.alike hz).file

/-- No changed file shares a package with a file that is not among the siblings. -/
theorem package_of_not_mem_siblings (hz : u.Pair fs fs' z) (hn : z.2.path ∉ u.siblings)
    (hl : LinkTables.packageLanguages.elem z.1.file.language = true) (g : IndexedFile) (hg : g ∈ fs ∨ g ∈ fs')
    (hc : g.path ∈ u.changed) (hd : Path.directory g.path = Path.directory z.1.path) :
    g.file.language ≠ z.1.file.language := by
  intro hlanguage
  refine hn (List.mem_flatMap.mpr ⟨g.path, hc, ?_⟩)
  dsimp only
  rw [h.languageOf_eq hg hc, hlanguage, if_pos hl, List.mem_filter, FileSet.mem_inDirectory, hd, hz.path]
  refine ⟨⟨?_, rfl⟩, ?_⟩
  · rw [← hz.path, tables, LinkTables.files, List.map_map]
    exact List.mem_map_of_mem hz.held
  · rw [← hz.path, h.unit?_eq hz.held, Option.map_some, h.language_eq hz, beq_self_eq_true]

/-- The imports of a file that is not linked again name the files that they named. -/
theorem targets_of_not_retargeted (hz : u.Pair fs fs' z) (hf : z.1 ∈ fs)
    (hrestored : restore? (ofIndexed fs) z.1.path = some z.2) (hn : u.isRetargeted z.2 = false) :
    ∀ s ∈ z.1.imports, (tablesOf fs).targets s.request z.1.path = (tablesOf fs').targets s.request z.1.path := by
  intro s hs
  rw [isRetargeted, restored_imports h.edited.before.toIndexed hf hrestored, ofEntries_link h.edited.before,
    List.any_map, List.any_eq_false] at hn
  have hsame := hn s hs
  simp only [Function.comp_apply, bne_iff_ne, ne_eq, not_not, hz.path, h.targets_eq] at hsame
  exact hsame.symm

/-- A file that is not linked again has the edges that it had, unless it sees a file that passes names on from files
that it did not name before. -/
theorem sameEdges_or_sees_retargeted (hz : u.Pair fs fs' z) (hn : z.2.path ∉ u.affected) :
    SameEdges (ofIndexed fs) (ofIndexed fs') z.1.path ∨
      ∃ w, (ofIndexed fs).passesOn w = true ∧ Retargeted (ofIndexed fs) (ofIndexed fs') w ∧
        z.1.path ∈ (ofIndexed fs).reach [w] := by
  obtain ⟨_, hreach, hsibling, hretargeted⟩ := of_not_affected hz.held hn
  rw [hz.path] at hreach
  obtain ⟨hkept, hf, hrestored⟩ := hz.kept hn
  have hbefore := h.edited.before
  have hsees : ∀ p, (tablesOf fs).Sees z.1.linkUnit p → p ∉ u.changed := by
    intro p hp hc
    rw [h.previous] at hreach
    exact hreach (hbefore.mem_reach_of_sees hf hp (.inl hc))
  by_cases hw : ∃ w, (ofIndexed fs).passesOn w = true ∧ Retargeted (ofIndexed fs) (ofIndexed fs') w ∧
      z.1.path ∈ (ofIndexed fs).reach [w]
  · exact .inr hw
  · refine .inl (sameEdges_of_link_eq hbefore h.edited.after hf hz.mem ?_)
    refine h.edited.link_eq hf hkept hsees (h.targets_of_not_retargeted hz hf hrestored hretargeted) ?_
      (h.package_of_not_mem_siblings hz hsibling)
    intro g hg hp r hr
    have hg' : g ∈ fs' := (h.edited.kept g (hsees g.path hp)).mp hg
    have hseen : z.1.path ∈ (ofIndexed fs).reach [g.path] :=
      hbefore.mem_reach_of_sees hf hp (.inl List.mem_cons_self)
    have hsame : ¬ Retargeted (ofIndexed fs) (ofIndexed fs') g.path :=
      fun hre => hw ⟨g.path, hbefore.passesOn hg hr, hre, hseen⟩
    obtain ⟨s, hs, hspecifier, hjava⟩ := hbefore.importing g hg r hr
    have htargets := targets_eq_of_not_retargeted hbefore h.edited.after hg hg' hsame s hs
    have hold := LinkTables.targets_of_specifier (hbefore.unit? hg) hspecifier hjava
    have hnew := LinkTables.targets_of_specifier (h.edited.after.unit? hg') hspecifier hjava
    exact (hold.symm.trans htargets).trans hnew

theorem recordable_relinked {zs : List (IndexedFile × IndexedFile)} (hfs : fs'.mergeSort IndexedFile.le = zs.map (·.1))
    (hz : ∀ z ∈ zs, u.Pair fs fs' z) (t : LinkTables) (relink : Text → Bool) :
    Recordable (zs.map fun z => relinked t relink z.2) := by
  have hafter := h.edited.after
  refine ⟨?_, fun g hg => ?_, fun g hg s hs => ?_⟩
  · have hpaths : (zs.map fun z => relinked t relink z.2).map (·.path) = zs.map fun z => z.1.path := by
      rw [List.map_map]
      exact List.map_congr_left fun z hm => (path_relinked _ _ _).trans (hz z hm).path
    rw [hpaths]
    exact nodup_of_sorted hfs hafter.paths
  · obtain ⟨z, hm, rfl⟩ := List.mem_map.mp hg
    rw [path_relinked, (hz z hm).path]
    exact hafter.keyed z.1 (hz z hm).mem
  · obtain ⟨z, hm, rfl⟩ := List.mem_map.mp hg
    have hq : s.qualifiedName ∈ z.1.linkUnit.listed := by
      have hlisted : z.1.linkUnit.listed = z.2.linkUnit.listed := (h.alike (hz z hm)).listed_eq
      rw [hlisted, ← listed_relinked t relink z.2]
      exact List.mem_map_of_mem hs
    obtain ⟨s', hs', he⟩ := List.mem_map.mp hq
    exact he ▸ (hafter.owned z.1 (hz z hm).mem).keyed s' hs'

/-- In the updated index a file that is not linked again has the edges that it had. -/
theorem sameEdges_of_kept {zs : List (IndexedFile × IndexedFile)} (hfs : fs'.mergeSort IndexedFile.le = zs.map (·.1))
    (hz : ∀ z ∈ zs, u.Pair fs fs' z) {relink : Text → Bool} (hm : z ∈ zs) (hf : z.1 ∈ fs)
    (hrestored : restore? (ofIndexed fs) z.1.path = some z.2) (hrelink : relink z.2.path = false) :
    SameEdges (ofIndexed fs) (ofLinked (zs.map fun z => relinked (held zs) relink z.2)) z.1.path := by
  have hbefore := h.edited.before
  have hlisted : ∀ z ∈ zs, z.1.linkUnit.listed = (relinked (held zs) relink z.2).linkUnit.listed :=
    fun z hm => (h.alike (hz z hm)).listed_eq.trans (listed_relinked _ _ z.2).symm
  have hsame : relinked (held zs) relink z.2 = z.2 := by rw [relinked, hrelink, if_neg Bool.false_ne_true]
  have hrecord := h.recordable_relinked hfs hz (held zs) relink
  have hmem : z.2 ∈ zs.map fun z => relinked (held zs) relink z.2 := List.mem_map.mpr ⟨z, hm, hsame⟩
  intro r r' hr hr'
  refine ⟨?_, fun q hq => ?_⟩
  · rw [← (hz z hm).path, hrecord.file hmem] at hr'
    obtain rfl := Option.some.inj hr'
    exact (imports_ofIndexed hbefore.toIndexed hf hr).trans
      (restored_imports hbefore.toIndexed hf hrestored).symm
  · rw [symbols_ofIndexed hbefore.toIndexed hf hr, hlisted z hm, hsame] at hq
    have hapart : (⟨zs.map fun z => (relinked (held zs) relink z.2).linkUnit⟩ : LinkTables).NamesApart := by
      refine LinkTables.namesApart_map (U := fun z => z.1.linkUnit) hlisted ?_
      have hafter := h.edited.after.namesApart
      rw [tablesOf, hfs, List.map_map] at hafter
      exact hafter
    have hunit : z.2.linkUnit ∈ zs.map fun z => (relinked (held zs) relink z.2).linkUnit :=
      List.mem_map.mpr ⟨z, hm, congrArg linkUnit hsame⟩
    obtain ⟨s, hs⟩ := LinkUnit.exists_symbol? hq
    obtain ⟨hs', hname⟩ := LinkUnit.symbol?_mem hs
    have hforward := congrArg (Option.map SymbolRecord.callees) (hrecord.symbol q)
    rw [Option.map_map, Option.map_map, List.map_map] at hforward
    have hsymbol := LinkTables.symbol?_of_listed hapart hunit hq
    have hnew : recordedCallees (ofLinked (zs.map fun z => relinked (held zs) relink z.2)) q = some s.callees := by
      refine Eq.trans hforward ?_
      have hunits : zs.map (linkUnit ∘ fun z => relinked (held zs) relink z.2) =
          zs.map fun z => (relinked (held zs) relink z.2).linkUnit := rfl
      rw [hunits, hsymbol, hs]
      rfl
    rw [hnew, recordedCallees, ← hname, restored_symbols hbefore.toIndexed hf hrestored hs', Option.map_some]

theorem sameEdges_of_assemble_eq (heq : assemble u.units u.affected.elem = ofIndexed fs') {f : IndexedFile}
    (hf' : f ∈ fs') (hn : f.path ∉ u.affected) : SameEdges (ofIndexed fs) (ofIndexed fs') f.path := by
  obtain ⟨zs, hfs, hunits, hz⟩ := h.exists_pairs
  obtain ⟨z, hm, rfl⟩ := List.mem_map.mp (hfs ▸ List.mem_mergeSort.mpr hf')
  rw [← (hz z hm).path] at hn
  obtain ⟨_, hf, hrestored⟩ := (hz z hm).kept hn
  have hrelink : u.affected.elem z.2.path = false := by simpa using hn
  rw [← heq, assemble_eq_map hunits]
  exact h.sameEdges_of_kept hfs hz hm hf hrestored hrelink

theorem assemble_eq_of_sameEdges
    (hsame : ∀ f ∈ fs', f.path ∉ u.affected → SameEdges (ofIndexed fs) (ofIndexed fs') f.path) :
    assemble u.units u.affected.elem = ofIndexed fs' := by
  have hbefore := h.edited.before
  have hafter := h.edited.after
  obtain ⟨zs, hfs, hunits, hz⟩ := h.exists_pairs
  have hkept : ∀ z ∈ zs, u.affected.elem z.2.path = false → z.1 ∈ fs ∧
      restore? (ofIndexed fs) z.1.path = some z.2 ∧ SameEdges (ofIndexed fs) (ofIndexed fs') z.1.path := by
    intro z hm hrelink
    have hn : z.2.path ∉ u.affected := by simpa using hrelink
    obtain ⟨_, hf, hrestored⟩ := (hz z hm).kept hn
    exact ⟨hf, hrestored, hsame z.1 (hz z hm).mem ((hz z hm).path ▸ hn)⟩
  refine (h.renewal hfs hz).assemble_eq hfs hunits (fun z hm hrelink => ?_) fun z hm hrelink s hs => ?_
  · obtain ⟨hf, hrestored, hedges⟩ := hkept z hm hrelink
    obtain ⟨r, hr, _⟩ := file_ofIndexed hbefore.toIndexed hf
    obtain ⟨r', hr', _⟩ := file_ofIndexed hafter.toIndexed (hz z hm).mem
    have himports := (hedges r r' hr hr').1
    rw [imports_ofIndexed hbefore.toIndexed hf hr, imports_ofIndexed hafter.toIndexed (hz z hm).mem hr'] at himports
    rw [restored_imports hbefore.toIndexed hf hrestored, himports, tablesOf_eq_built hfs]
  · obtain ⟨hf, hrestored, hedges⟩ := hkept z hm hrelink
    obtain ⟨r, hr, _⟩ := file_ofIndexed hbefore.toIndexed hf
    obtain ⟨r', hr', _⟩ := file_ofIndexed hafter.toIndexed (hz z hm).mem
    have hlisted : z.1.linkUnit.listed = z.2.linkUnit.listed := (h.alike (hz z hm)).listed_eq
    have hq : s.qualifiedName ∈ r.symbols := by
      rw [symbols_ofIndexed hbefore.toIndexed hf hr, hlisted]
      exact List.mem_map_of_mem hs
    have hcallees := (hedges r r' hr hr').2 s.qualifiedName hq
    have hforward := congrArg (Option.map SymbolRecord.callees) (symbol_ofIndexed hafter.toIndexed s.qualifiedName)
    rw [Option.map_map, Option.map_map, linkedTables_eq_full hfs] at hforward
    rw [recordedCallees, restored_symbols hbefore.toIndexed hf hrestored hs] at hcallees
    exact (hcallees.trans hforward).symm

/-- The updated index is that of a full build if and only if every file that is not linked again keeps its edges. -/
theorem assemble_eq_iff : assemble u.units u.affected.elem = ofIndexed fs' ↔
    ∀ f ∈ fs', f.path ∉ u.affected → SameEdges (ofIndexed fs) (ofIndexed fs') f.path :=
  ⟨fun heq _ hf hn => h.sameEdges_of_assemble_eq heq hf hn, h.assemble_eq_of_sameEdges⟩

/-- The updated index is that of a full build if and only if the files that see one which passes names on from other
files than before keep their edges, or are linked again. -/
theorem assemble_eq_iff_retargeted : assemble u.units u.affected.elem = ofIndexed fs' ↔
    ∀ w, (ofIndexed fs).passesOn w = true → Retargeted (ofIndexed fs) (ofIndexed fs') w →
      ∀ p ∈ (ofIndexed fs).reach [w], p ∉ u.affected → SameEdges (ofIndexed fs) (ofIndexed fs') p := by
  rw [h.assemble_eq_iff]
  constructor
  · intro hsame w _ _ p _ hn r r' hr hr'
    have hkey := Table.get?_isSome.mp (Option.isSome_iff_exists.mpr ⟨r', hr'⟩)
    obtain ⟨f, hf, rfl⟩ := List.mem_map.mp ((keys_ofIndexed h.edited.after.toIndexed).mem_iff.mp hkey)
    exact hsame f hf hn r r' hr hr'
  · intro hseen f hf hn
    obtain ⟨zs, hfs, _, hz⟩ := h.exists_pairs
    obtain ⟨z, hm, rfl⟩ := List.mem_map.mp (hfs ▸ List.mem_mergeSort.mpr hf)
    cases h.sameEdges_or_sees_retargeted (hz z hm) ((hz z hm).path.symm ▸ hn) with
    | inl hsame => exact hsame
    | inr hw =>
      obtain ⟨w, hpasses, hretargeted, hreach⟩ := hw
      exact hseen w hpasses hretargeted _ hreach hn

end Holds
end UpdateUnits
end AnnotationIndex
