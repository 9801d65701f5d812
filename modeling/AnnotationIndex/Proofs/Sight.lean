import AnnotationIndex.Proofs.Affected
import AnnotationIndex.Proofs.ExportSource
import AnnotationIndex.Proofs.Naming

/-!
What a file sees. The search for what a file imports arrives in the files that its imports name and, from these, in the
files that requests name through which names are passed on. An index tells all importers of these files, so that the
search for the files that see a change finds every file that sees a changed one.
-/
namespace AnnotationIndex
open Text

namespace LinkUnit
variable {u : LinkUnit}

def Importing (u : LinkUnit) : Prop :=
  ∀ r ∈ u.passing, ∃ s ∈ u.imports, s.request.specifier = r.specifier ∧ (u.language = "java" → s.request = r)

theorem importing_of_sourced (h : Sourced u.imports u.exports)
    (hjava : u.language = "java" → ∀ row ∈ u.exports, row.source = none) : u.Importing := by
  intro r hr
  obtain ⟨row, hrow, specifier, hs, rfl⟩ | ⟨s, hs, rfl⟩ := mem_passing hr
  · obtain ⟨s, hm, he⟩ := h row hrow specifier hs
    exact ⟨s, hm, he, fun hl => absurd (hs.symm.trans (hjava hl row hrow)) (by simp)⟩
  · exact ⟨s, hs, rfl, fun _ => rfl⟩

end LinkUnit

namespace LinkTables
variable {t t' : LinkTables} {u : LinkUnit}

theorem targets_of_specifier {r r' : ModuleRequest} (hu : t.unit? u.path = some u) (h : r.specifier = r'.specifier)
    (hjava : u.language = "java" → r = r') : t.targets r u.path = t.targets r' u.path := by
  rw [targets, targets, hu]
  exact congrArg (List.filter _) (ModuleTarget.find_of_specifier h hjava t.files)

/-- The files in which the search for what a unit imports may arrive. -/
inductive Sees (t : LinkTables) (u : LinkUnit) : Text → Prop where
  | imported {s : ImportStatement} {target : Text} (hs : s ∈ u.imports)
      (ht : target ∈ t.targets s.request u.path) : Sees t u target
  | passed {p target : Text} {v : LinkUnit} {r : ModuleRequest} (h : Sees t u p) (hv : t.unit? p = some v)
      (hr : r ∈ v.passing) (ht : target ∈ t.targets r p) : Sees t u target

theorem Sees.exists_unit {p : Text} (h : t.Sees u p) : ∃ v, t.unit? p = some v := by
  have hmem : p ∈ t.units.map (·.path) := by
    cases h with
    | imported _ ht => exact (mem_targets ht).1
    | passed _ _ _ ht => exact (mem_targets ht).1
  exact Option.isSome_iff_exists.mp (unit?_isSome.mpr hmem)

end LinkTables

namespace ProjectIndex
open IndexedFile
variable {fs : List IndexedFile} {f g : IndexedFile}

structure Regular (fs : List IndexedFile) : Prop extends Indexed fs, Legible fs where
  named : ∀ f ∈ fs, ∀ s ∈ f.symbols, s.NamedIn f.path
  importing : ∀ f ∈ fs, f.linkUnit.Importing
  language : ∀ f ∈ fs, f.file.language = Language.ofPath f.path

theorem Indexed.unit? (h : Indexed fs) (hf : f ∈ fs) : (tablesOf fs).unit? f.path = some f.linkUnit :=
  LinkTables.unit?_map_of_mem (U := linkUnit) (nodup_sorted h.paths) (List.mem_mergeSort.mpr hf)

theorem exists_of_unit? {p : Text} {u : LinkUnit} (h : (tablesOf fs).unit? p = some u) :
    ∃ f ∈ fs, f.linkUnit = u ∧ f.path = p := by
  obtain ⟨hm, hp⟩ := LinkTables.unit?_mem h
  obtain ⟨f, hf, rfl⟩ := List.mem_map.mp hm
  exact ⟨f, List.mem_mergeSort.mp hf, rfl, hp⟩

theorem exists_of_targets {r : ModuleRequest} {p target : Text} (ht : target ∈ (tablesOf fs).targets r p) :
    ∃ g ∈ fs, g.path = target := by
  obtain ⟨u, hu⟩ := Option.isSome_iff_exists.mp (LinkTables.unit?_isSome.mpr (LinkTables.mem_targets ht).1)
  obtain ⟨g, hg, _, hpath⟩ := exists_of_unit? hu
  exact ⟨g, hg, hpath⟩

theorem nodup_importersOf (fs : List IndexedFile) (p : Text) : ((ofIndexed fs).importersOf p).Nodup := by
  unfold ProjectIndex.importersOf
  rw [ofIndexed_eq, ofLinked, ofRecords, withImporters, Table.get?_mapValues, Option.map_map]
  cases Table.get? (Table.gather ((linkedFiles fs).map fileEntry)) p with
  | none => exact List.nodup_nil
  | some r =>
    show (AnnotationIndex.importersOf _ r.path).Nodup
    unfold AnnotationIndex.importersOf
    split
    · exact List.nodup_nil
    · exact nodup_sortedSet _

namespace Regular
variable (h : Regular fs)
include h

theorem namesAgree : NamesAgree fs := h.toLegible.namesAgree h.named

theorem namesApart : (tablesOf fs).NamesApart := h.toLegible.namesApart h.toIndexed h.named

theorem symbol? (hf : f ∈ fs) {q : Text} (hq : q ∈ f.linkUnit.listed) :
    (tablesOf fs).symbol? q = f.linkUnit.symbol? q :=
  LinkTables.symbol?_of_listed h.namesApart (List.mem_map_of_mem (List.mem_mergeSort.mpr hf)) hq

theorem nodup_keys : (ofIndexed fs).files.keys.Nodup :=
  (keys_ofIndexed h.toIndexed).nodup_iff.mpr h.paths

/-- An index tells every importer of a file. -/
theorem mem_importersOf {s : ImportStatement} {target : Text} (hf : f ∈ fs) (hs : s ∈ f.imports)
    (ht : target ∈ (tablesOf fs).targets s.request f.path) : f.path ∈ (ofIndexed fs).importersOf target := by
  obtain ⟨g, hg, rfl⟩ := exists_of_targets ht
  have hrecord := recordable_linkedFiles h.toIndexed
  have hfile := hrecord.file (mem_linkedFiles.mpr ⟨g, hg, rfl⟩)
  rw [path_relinked] at hfile
  rw [ProjectIndex.importersOf, ofIndexed_eq, hfile, Option.map_some, Option.getD_some, file_path_relinked,
    (h.owned g hg).path, AnnotationIndex.importersOf, if_neg (by simpa using h.inside g hg), mem_sortedSet]
  have hentry := hrecord.lookup_entry fileEntry (fun _ => rfl) (mem_linkedFiles.mpr ⟨f, hf, rfl⟩)
  have hpath : (relinked (tablesOf fs) (fun _ => true) f).file.path = f.path := by
    rw [file_path_relinked, (h.owned f hf).path]
  refine List.mem_map.mpr ⟨_, List.mem_filter.mpr ⟨List.mem_map_of_mem (Table.mem_of_get? hentry), ?_⟩, hpath⟩
  let entry := LinkTables.entryOf s g.path ((tablesOf fs).entryNames f.path s g.path)
  refine List.any_eq_true.mpr ⟨entry, ?_, beq_self_eq_true g.path⟩
  have himport : entry ∈ (tablesOf fs).linkImport f.path s := by
    rw [LinkTables.linkImport_eq_map]
    exact List.mem_map_of_mem (LinkTables.mem_entryTargets ht)
  exact List.mem_flatMap.mpr ⟨s, hs, himport⟩

/-- A file through which names pass is one that exports again what it imports. -/
theorem passesOn {r : ModuleRequest} (hf : f ∈ fs) (hr : r ∈ f.linkUnit.passing) :
    (ofIndexed fs).passesOn f.path = true := by
  have hfile := (recordable_linkedFiles h.toIndexed).file (mem_linkedFiles.mpr ⟨f, hf, rfl⟩)
  rw [path_relinked] at hfile
  rw [ProjectIndex.passesOn, ofIndexed_eq, hfile]
  obtain ⟨row, hrow, hpasses⟩ := List.mem_filterMap.mp hr
  have hrow : row ∈ f.file.exports := hrow
  refine List.any_eq_true.mpr ⟨row, hrow, ?_⟩
  rw [Bool.or_eq_true]
  unfold LinkUnit.passes at hpasses
  cases hs : row.source with
  | some specifier => exact .inl rfl
  | none =>
    simp only [hs, Option.ite_none_left_eq_some] at hpasses
    refine .inr ?_
    rw [Bool.not_eq_true', ← Bool.not_eq_true]
    intro hhas
    -- the name would be that of a symbol of the file, and would not come from elsewhere
    have hlisted : ∃ s, (linkedTables fs).symbol? (f.path ++ unit ':' :: row.binding.getD row.name) = some s := by
      have hkey := Table.get?_isSome.mpr (Table.has_iff.mp hhas)
      rw [← ofIndexed_eq, file_path_relinked, (h.owned f hf).path] at hkey
      have hsymbol := congrArg Option.isSome
        (symbol_ofIndexed h.toIndexed (f.path ++ unit ':' :: row.binding.getD row.name))
      rw [Option.isSome_map, Option.isSome_map, hkey] at hsymbol
      exact Option.isSome_iff_exists.mp hsymbol.symm
    obtain ⟨u, hu, hq⟩ := LinkTables.exists_symbol?.mp hlisted
    obtain ⟨g', hg', rfl⟩ := List.mem_map.mp hu
    obtain ⟨g, hg, rfl⟩ := mem_linkedFiles.mp hg'
    have hq : _ ∈ (relinked (tablesOf fs) (fun _ => true) g).symbols.map (·.qualifiedName) := hq
    rw [names_relinked] at hq
    obtain ⟨s, hs, hname⟩ := List.mem_map.mp hq
    exact hpasses.1 (h.symbolNamed_of_listed h.toIndexed h.named hf (h.rows f hf row hrow) hg hs hname)

/-- A file that sees one of these is found among the files that see a change of them. -/
theorem mem_reach_of_sees {p : Text} {changed : List Text} (hf : f ∈ fs) (hsees : (tablesOf fs).Sees f.linkUnit p)
    (hp : p ∈ changed ∨ p ∈ (ofIndexed fs).reach changed ∧ (ofIndexed fs).passesOn p = true) :
    f.path ∈ (ofIndexed fs).reach changed := by
  have hclosed : ∀ p, (p ∈ changed ∨ p ∈ (ofIndexed fs).reach changed ∧ (ofIndexed fs).passesOn p = true) →
      (ofIndexed fs).importersOf p ⊆ (ofIndexed fs).reach changed :=
    fun p hp => importersOf_subset_reach (nodup_keys h) (nodup_importersOf fs) hp
  induction hsees with
  | imported hs ht => exact hclosed _ hp (h.mem_importersOf hf hs ht)
  | @passed p target v r hsees hv hr ht ih =>
    obtain ⟨g, hg, rfl, rfl⟩ := exists_of_unit? hv
    obtain ⟨s, hs, hspecifier, hjava⟩ := h.importing g hg r hr
    have htargets := LinkTables.targets_of_specifier (h.unit? hg) hspecifier hjava
    have ht : target ∈ (tablesOf fs).targets s.request g.path := htargets ▸ ht
    exact ih (.inr ⟨hclosed _ hp (h.mem_importersOf hg hs ht), h.passesOn hg hr⟩)

end Regular

/-- The files of a project before and after an edit that leaves all files as they were but the changed ones. -/
structure Edited (fs fs' : List IndexedFile) (changed : List Text) : Prop where
  before : Regular fs
  after : Regular fs'
  kept : ∀ f, f.path ∉ changed → (f ∈ fs ↔ f ∈ fs')

namespace Edited
variable {fs' : List IndexedFile} {changed : List Text} (h : Edited fs fs' changed)
include h

/-- The files of a package are the same if no changed file belongs to it. -/
theorem inPackage_iff (hpackage : ∀ g, g ∈ fs ∨ g ∈ fs' → g.path ∈ changed →
      Path.directory g.path = Path.directory f.path → g.file.language ≠ f.file.language) (p : Text) :
    (tablesOf fs).InPackage f.linkUnit p ↔ (tablesOf fs').InPackage f.linkUnit p := by
  have hside : ∀ {gs gs' : List IndexedFile}, Regular gs' →
      (∀ g ∈ gs, Path.directory g.path = Path.directory f.path → g.file.language = f.file.language → g ∈ gs') →
      (tablesOf gs).InPackage f.linkUnit p → (tablesOf gs').InPackage f.linkUnit p := by
    rintro gs gs' hgs' hsub ⟨hd, hl⟩
    obtain ⟨u, hu, hlanguage⟩ := Option.map_eq_some_iff.mp hl
    obtain ⟨g, hg, rfl, rfl⟩ := exists_of_unit? hu
    exact ⟨hd, by rw [hgs'.unit? (hsub g hg hd hlanguage), Option.map_some, hlanguage]⟩
  refine ⟨hside h.after fun g hg hd hl => ?_, hside h.before fun g hg hd hl => ?_⟩
  · exact (h.kept g fun hc => hpackage g (.inl hg) hc hd hl).mp hg
  · exact (h.kept g fun hc => hpackage g (.inr hg) hc hd hl).mpr hg

abbrev Unchanged (fs : List IndexedFile) (changed : List Text) (p : Text) : Prop :=
  ∃ g ∈ fs, g.path ∉ changed ∧ g.path = p

theorem unit?_of_kept {g : IndexedFile} (hg : g ∈ fs) (hk : g.path ∉ changed) :
    (tablesOf fs).unit? g.path = some g.linkUnit ∧ (tablesOf fs').unit? g.path = some g.linkUnit :=
  ⟨h.before.unit? hg, h.after.unit? ((h.kept g hk).mp hg)⟩

theorem view_of_unchanged {p : Text} (hp : Unchanged fs changed p) :
    ((tablesOf fs).unit? p).map (·.view) = ((tablesOf fs').unit? p).map (·.view) := by
  obtain ⟨g, hg, hk, rfl⟩ := hp
  rw [(h.unit?_of_kept hg hk).1, (h.unit?_of_kept hg hk).2]

/-- A symbol of an unchanged file is the one that this file lists, before and after. -/
theorem symbol?_of_unchanged {q : Text} (hq : (tablesOf fs).Listed (Unchanged fs changed) q) :
    ∃ g ∈ fs, g.path ∉ changed ∧ (tablesOf fs).symbol? q = g.linkUnit.symbol? q ∧
      (tablesOf fs').symbol? q = g.linkUnit.symbol? q := by
  obtain ⟨p, u, ⟨g, hg, hk, rfl⟩, hu, hq⟩ := hq
  obtain rfl := Option.some.inj ((h.unit?_of_kept hg hk).1.symm.trans hu)
  exact ⟨g, hg, hk, h.before.symbol? hg hq, h.after.symbol? ((h.kept g hk).mp hg) hq⟩

/-- A file is linked as before if it sees no changed file, if its imports name the files that they named, as do the
requests through which it sees names pass, and if its package is the same. -/
theorem link_eq (hf : f ∈ fs) (hkept : f.path ∉ changed)
    (hsees : ∀ p, (tablesOf fs).Sees f.linkUnit p → p ∉ changed)
    (htargets : ∀ s ∈ f.imports, (tablesOf fs).targets s.request f.path = (tablesOf fs').targets s.request f.path)
    (hpassed : ∀ g ∈ fs, (tablesOf fs).Sees f.linkUnit g.path → ∀ r ∈ g.linkUnit.passing,
      (tablesOf fs).targets r g.path = (tablesOf fs').targets r g.path)
    (hpackage : LinkTables.packageLanguages.elem f.file.language = true → ∀ g, g ∈ fs ∨ g ∈ fs' → g.path ∈ changed →
      Path.directory g.path = Path.directory f.path → g.file.language ≠ f.file.language) :
    (tablesOf fs).link f.linkUnit = (tablesOf fs').link f.linkUnit := by
  have hseen : ∀ p, (tablesOf fs).Sees f.linkUnit p → Unchanged fs changed p := by
    intro p hp
    obtain ⟨u, hu⟩ := hp.exists_unit
    obtain ⟨g, hg, _, rfl⟩ := exists_of_unit? hu
    exact ⟨g, hg, hsees _ hp, rfl⟩
  obtain ⟨hunit, hunit'⟩ := h.unit?_of_kept hf hkept
  refine LinkTables.FileFrame.link_eq (F := (tablesOf fs).Sees f.linkUnit) (G := Unchanged fs changed)
    ⟨⟨fun p hp => h.view_of_unchanged (hseen p hp), ?_, ?_⟩, hseen, fun p hp => h.view_of_unchanged hp,
      ⟨f, hf, hkept, rfl⟩, hunit, hunit', htargets, ?_, ?_, ?_, ?_, (h.before.owned f hf).linkUnit.callers⟩
  · intro u hsees hu r hr
    obtain ⟨g, hg, rfl, _⟩ := exists_of_unit? hu
    exact hpassed g hg hsees r hr
  · exact fun u hsees hu r hr target ht => .passed hsees hu hr ht
  · exact fun s hs target ht => .imported hs ht
  · intro hl
    refine ⟨LinkTables.siblings_congr (h.inPackage_iff (hpackage hl)), fun p hp => ?_⟩
    obtain ⟨⟨hd, hsome⟩, _⟩ := LinkTables.mem_siblings.mp hp
    obtain ⟨u, hu, hlanguage⟩ := Option.map_eq_some_iff.mp hsome
    obtain ⟨g, hg, rfl, rfl⟩ := exists_of_unit? hu
    exact ⟨g, hg, fun hc => hpackage hl g (.inl hg) hc hd hlanguage, rfl⟩
  · intro q hq
    obtain ⟨g, _, _, hs, hs'⟩ := h.symbol?_of_unchanged hq
    rw [hs, hs']
  · intro q hq s hs
    obtain ⟨g, hg, hk, hsymbol, _⟩ := h.symbol?_of_unchanged hq
    refine ⟨g, hg, hk, ((h.before.owned g hg).files s ?_).symm⟩
    exact (LinkUnit.symbol?_mem (hsymbol ▸ hs)).1

end Edited
end ProjectIndex
end AnnotationIndex
