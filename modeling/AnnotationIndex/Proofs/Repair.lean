import AnnotationIndex.Proofs.Askable
import AnnotationIndex.Proofs.Naming
import AnnotationIndex.Proofs.PathChanges
import AnnotationIndex.Proofs.Recorded

/-!
Repairing an index. Whatever builds and updates leave, the files that are no longer as recorded are the changed paths of
an update that makes the index fresh again.
-/
namespace AnnotationIndex
open Text

section Names

def NameIn (path q : Text) : Prop := ∃ name, q = path ++ unit ':' :: name

/-- Of two files that give one name, one has a colon in its path. -/
theorem colon_mem_of_nameIn {path path' q : Text} (h : NameIn path q) (h' : NameIn path' q) (hne : path ≠ path') :
    unit ':' ∈ path ∨ unit ':' ∈ path' := by
  by_contra hnone
  obtain ⟨hpath, hpath'⟩ := not_or.mp hnone
  obtain ⟨name, rfl⟩ := h
  obtain ⟨name', hname'⟩ := h'
  exact hne (eq_of_tails hpath hpath' (.inr rfl) (.inr rfl) hname').1

end Names

structure IndexedFile.Sound (f : IndexedFile) : Prop where
  askable : IgnoreRules.Askable f.path
  named : ∀ q ∈ f.file.symbols, NameIn f.path q
  symbols : ∀ s ∈ f.symbols, s.qualifiedName ∈ f.file.symbols ∧ NameIn s.file s.qualifiedName
  dropped : f.path = Table.droppedKey → ∀ s ∈ f.symbols, s.file = Table.droppedKey

namespace ProjectIndex
open IndexedFile
variable {r : ProjectIndex} {fs : List IndexedFile} {relink : Text → Bool} {path : Text}

/-- What every index of a project keeps to: files and hashes have the same keys, and every name is listed by a recorded
file or is one of a file that no table takes. A name tells of which file it was when it was found, which may be another
one than lists it. -/
structure Coherent (r : ProjectIndex) : Prop where
  hashes : r.contentHashes.keys = r.files.keys
  distinct : r.files.keys.Nodup
  keyed : Table.droppedKey ∉ r.files.keys
  askable : ∀ path ∈ r.files.keys, IgnoreRules.Askable path
  named : ∀ path f, Table.get? r.files path = some f → ∀ q ∈ f.symbols, NameIn path q
  symbols : ∀ q s, Table.get? r.symbols q = some s → s.qualifiedName = q ∧ NameIn s.file q
  listed : ∀ q s, Table.get? r.symbols q = some s →
    s.file = Table.droppedKey ∨ ∃ path f, Table.get? r.files path = some f ∧ q ∈ f.symbols

theorem coherent_assemble (hs : ∀ f ∈ fs, f.Sound) (hone : ∀ f ∈ fs, ∀ g ∈ fs, f.path = g.path → f = g)
    (relink : Text → Bool) : Coherent (assemble fs relink) where
  hashes := keys_hashes fs relink
  distinct := nodup_keys_files fs relink
  keyed h := (mem_keys_files.mp h).2 rfl
  askable path h := by
    obtain ⟨g, hg, rfl⟩ := List.mem_map.mp (mem_keys_files.mp h).1
    exact (hs g hg).askable
  named path f hf q hq := by
    obtain ⟨g, hg, rfl, hbare⟩ := bare_of_file hf
    have hsymbols : f.symbols = g.file.symbols := congrArg (·.symbols) hbare
    exact (hs g hg).named q (hsymbols ▸ hq)
  symbols q s h := by
    obtain ⟨g, hg, s₀, hs₀, rfl, hbare⟩ := bare_of_symbol h
    have hfile : s.file = s₀.file := congrArg (·.file) hbare
    have hname : s.qualifiedName = s₀.qualifiedName := congrArg (·.qualifiedName) hbare
    exact ⟨hname, hfile ▸ ((hs g hg).symbols s₀ hs₀).2⟩
  listed q s h := by
    obtain ⟨g, hg, s₀, hs₀, rfl, hbare⟩ := bare_of_symbol h
    have hfile : s.file = s₀.file := congrArg (·.file) hbare
    by_cases hdropped : g.path = Table.droppedKey
    · exact .inl (hfile.trans ((hs g hg).dropped hdropped s₀ hs₀))
    · obtain ⟨f, hf, hbare⟩ := exists_bare_file relink hg (fun g' hg' => hone g' hg' g hg) hdropped
      have hsymbols : f.symbols = g.file.symbols := congrArg (·.symbols) hbare
      exact .inr ⟨g.path, f, hf, hsymbols ▸ ((hs g hg).symbols s₀ hs₀).1⟩

/-- A restored file is made of what the index records under its path. -/
theorem exists_record_of_restore? {g : IndexedFile} (hg : restore? r path = some g) :
    ∃ f, Table.get? r.files path = some f ∧ Table.get? r.contentHashes path = some g.hash ∧
      g = ofRecord r path g.hash f := by
  simp only [restore?, Option.bind_eq_bind, Option.bind_eq_some_iff] at hg
  obtain ⟨f, hf, hash, hhash, hg⟩ := hg
  obtain rfl := Option.some.inj hg
  exact ⟨f, hf, hhash, rfl⟩

namespace Coherent
variable (h : Coherent r)
include h

theorem exists_hash (hp : path ∈ r.files.keys) : ∃ hash, Table.get? r.contentHashes path = some hash :=
  Option.isSome_iff_exists.mp (Table.get?_isSome.mpr (h.hashes ▸ hp))

theorem get?_of_mem {e : Text × Text} (he : e ∈ r.contentHashes) : Table.get? r.contentHashes e.1 = some e.2 :=
  Table.get?_of_mem (h.hashes ▸ h.distinct) he

/-- A file restored from an index is one that an index can be assembled of. -/
theorem sound_restored {g : IndexedFile} (hg : restore? r path = some g) : g.Sound := by
  obtain ⟨f, hf, _, hgf⟩ := exists_record_of_restore? hg
  have hkey : path ∈ r.files.keys := Table.get?_isSome.mp (Option.isSome_iff_exists.mpr ⟨f, hf⟩)
  rw [hgf]
  refine ⟨h.askable path hkey, h.named path f hf, fun s hs => ?_, fun hd => absurd (hd ▸ hkey) h.keyed⟩
  obtain ⟨q, hq, hs⟩ := List.mem_filterMap.mp hs
  obtain ⟨rfl, hname⟩ := h.symbols q s hs
  exact ⟨hq, hname⟩

theorem exists_restored (hp : path ∈ r.files.keys) : ∃ g ∈ restoreAll r, g.path = path := by
  obtain ⟨f, hf⟩ := Option.isSome_iff_exists.mp (Table.get?_isSome.mpr hp)
  obtain ⟨hash, hhash⟩ := h.exists_hash hp
  refine ⟨ofRecord r path hash f, List.mem_filterMap.mpr ⟨path, hp, ?_⟩, rfl⟩
  rw [restore?, hf, hhash]
  rfl

end Coherent

section Staleness
variable {ε : Type} {hashOf : Text → Except ε (Option Text)} {stale : List Text}

theorem exists_changed_of_staleFiles (h : r.staleFiles hashOf = .ok stale) :
    ∃ changed : Text × Text → Bool,
      (∀ e ∈ r.contentHashes, ∃ now, hashOf e.1 = .ok now ∧ changed e = (now != some e.2)) ∧
      stale = ((r.contentHashes.filter changed).map (·.1)).mergeSort Text.le := by
  rw [staleFiles, bind_eq_ok] at h
  obtain ⟨found, hfound, h⟩ := h
  obtain ⟨changed, hchanged, rfl⟩ := filterM_eq_ok_iff.mp hfound
  refine ⟨changed, fun e he => ?_, (Except.ok.inj h).symm⟩
  obtain ⟨now, hok, hnow⟩ := bind_eq_ok.mp (hchanged e he)
  exact ⟨now, hok, (Except.ok.inj hnow).symm⟩

theorem staleFiles_eq_nil (h : ∀ e ∈ r.contentHashes, hashOf e.1 = .ok (some e.2)) : r.staleFiles hashOf = .ok [] := by
  have hnone : r.contentHashes.filterM (fun e => do return (← hashOf e.1) != some e.2) = .ok [] := by
    refine filterM_eq_ok_iff.mpr ⟨fun _ => false, fun e he => ?_, by simp⟩
    rw [h e he]
    simp [bind, Except.bind, pure, Except.pure]
  rw [staleFiles, hnone]
  simp [bind, Except.bind, pure, Except.pure]

namespace Coherent
variable (h : Coherent r) (hs : r.staleFiles hashOf = .ok stale)
include h hs

theorem exists_now (hp : path ∈ r.files.keys) : ∃ now, hashOf path = .ok now := by
  obtain ⟨changed, hchanged, _⟩ := exists_changed_of_staleFiles hs
  obtain ⟨e, he, rfl⟩ := List.mem_map.mp (h.hashes ▸ hp : path ∈ r.contentHashes.keys)
  obtain ⟨now, hnow, _⟩ := hchanged e he
  exact ⟨now, hnow⟩

/-- Stale is what is recorded with another hash than it has now. -/
theorem mem_stale {now : Option Text} (hnow : hashOf path = .ok now) :
    path ∈ stale ↔ ∃ hash, Table.get? r.contentHashes path = some hash ∧ now ≠ some hash := by
  obtain ⟨changed, hchanged, rfl⟩ := exists_changed_of_staleFiles hs
  have hiff : ∀ e ∈ r.contentHashes, e.1 = path → (changed e = true ↔ now ≠ some e.2) := by
    rintro e he rfl
    obtain ⟨now', hnow', hc⟩ := hchanged e he
    obtain rfl := Except.ok.inj (hnow'.symm.trans hnow)
    rw [hc, bne_iff_ne]
  rw [List.mem_mergeSort, List.mem_map]
  constructor
  · rintro ⟨e, he, rfl⟩
    obtain ⟨he, hc⟩ := List.mem_filter.mp he
    exact ⟨e.2, h.get?_of_mem he, (hiff e he rfl).mp hc⟩
  · rintro ⟨hash, hhash, hne⟩
    have he := Table.mem_of_get? hhash
    exact ⟨(path, hash), List.mem_filter.mpr ⟨he, (hiff _ he rfl).mpr hne⟩, rfl⟩

theorem key_of_stale (hp : path ∈ stale) : path ∈ r.files.keys := by
  obtain ⟨changed, _, rfl⟩ := exists_changed_of_staleFiles hs
  obtain ⟨e, he, rfl⟩ := List.mem_map.mp (List.mem_mergeSort.mp hp)
  exact h.hashes ▸ List.mem_map_of_mem (List.mem_filter.mp he).1

omit hs in
/-- The stale files are known by what they are and their order. -/
theorem staleFiles_eq (hsorted : stale.Pairwise fun s t => lt s t = true) (hkeys : ∀ path ∈ stale, path ∈ r.files.keys)
    (hnow : ∀ path hash, Table.get? r.contentHashes path = some hash →
      ∃ now, hashOf path = .ok now ∧ (path ∈ stale ↔ now ≠ some hash)) : r.staleFiles hashOf = .ok stale := by
  have hchanged : r.contentHashes.filterM (fun e => do return (← hashOf e.1) != some e.2) =
      .ok (r.contentHashes.filter fun e => decide (e.1 ∈ stale)) := by
    refine filterM_eq_ok_iff.mpr ⟨_, fun e he => ?_, rfl⟩
    obtain ⟨now, hok, hiff⟩ := hnow e.1 e.2 (h.get?_of_mem he)
    simp [hok, hiff, bind, Except.bind, pure, Except.pure, bne, beq_eq_decide]
  have hdistinct : ((r.contentHashes.filter fun e => decide (e.1 ∈ stale)).map (·.1)).Nodup :=
    (h.hashes ▸ h.distinct : r.contentHashes.keys.Nodup).sublist (List.filter_sublist.map _)
  rw [staleFiles, hchanged]
  refine congrArg Except.ok (eq_of_mem_iff (pairwise_mergeSort_of_nodup hdistinct) hsorted fun path => ?_)
  rw [List.mem_mergeSort, List.mem_map]
  constructor
  · rintro ⟨e, he, rfl⟩
    exact of_decide_eq_true (List.mem_filter.mp he).2
  · intro hpath
    obtain ⟨hash, hhash⟩ := h.exists_hash (hkeys path hpath)
    exact ⟨(path, hash), List.mem_filter.mpr ⟨Table.mem_of_get? hhash, decide_eq_true hpath⟩, rfl⟩

end Coherent
end Staleness

theorem sound_ofText {p : Project} {path text : Text} {f : IndexedFile} (ha : IgnoreRules.Askable path)
    (h : ofText p.rules path text = .ok f) : f.Sound := by
  obtain ⟨howned, rfl, _⟩ := owned_ofText h
  have hnamed : ∀ s ∈ f.symbols, NameIn f.path s.qualifiedName := by
    intro s hs
    obtain ⟨more, hq, _⟩ := namedIn_ofText h s hs
    exact ⟨_, hq⟩
  refine ⟨ha, fun q hq => ?_, fun s hs => ⟨howned.listed ▸ List.mem_map_of_mem hs, ?_⟩, fun hd s hs => ?_⟩
  · rw [← howned.listed] at hq
    obtain ⟨s, hs, rfl⟩ := List.mem_map.mp hq
    exact hnamed s hs
  · rw [howned.files s hs]
    exact hnamed s hs
  · rw [howned.files s hs, hd]

end ProjectIndex

namespace Project
open Work ProjectIndex IndexedFile
variable {p : Project} {disk : Disk} {filter : ProjectFilter} {r : ProjectIndex} {path : Text}

theorem sound_of_indexes {f : IndexedFile} (ha : IgnoreRules.Askable path) (h : p.Indexes disk path f) : f.Sound := by
  obtain ⟨_, _, hf⟩ := h
  exact sound_ofText ha hf

theorem path_of_indexes {f : IndexedFile} (h : p.Indexes disk path f) : f.path = path := by
  obtain ⟨_, _, hf⟩ := h
  exact (owned_ofText hf).2.1

/-- Files with the same path have the same text. -/
theorem eq_of_indexes {path' : Text} {f g : IndexedFile} (hf : p.Indexes disk path f) (hg : p.Indexes disk path' g)
    (hpath : f.path = g.path) : f = g := by
  obtain rfl : path = path' := (path_of_indexes hf).symm.trans (hpath.trans (path_of_indexes hg))
  obtain ⟨text, hread, hf⟩ := hf
  obtain ⟨text', hread', hg⟩ := hg
  obtain rfl := Option.some.inj (Except.ok.inj (hread.symm.trans hread'))
  exact Except.ok.inj (hf.symm.trans hg)

theorem askable_of_scan {root : Text} {c : Configuration} {paths : List Text} (h : scan disk root c = .ok paths) :
    ∀ path ∈ paths, IgnoreRules.Askable path := by
  intro path hpath
  simp only [scan, scanWith, bind, Except.bind, pure, Except.pure] at h
  split at h
  · exact absurd h nofun
  next rules _ =>
  split at h
  · exact absurd h nofun
  split at h
  · exact absurd h nofun
  split at h
  · exact absurd h nofun
  next kept hkept =>
  obtain rfl := Except.ok.inj h
  obtain ⟨keep, hkeep, rfl⟩ := filterM_eq_ok_iff.mp hkept
  have hshown := (List.mem_filter.mp (List.mem_filter.mp (List.mem_mergeSort.mp hpath)).1).1
  have hasked := hkeep path hshown
  cases hignores : rules.ignores path with
  | error e =>
    rw [hignores] at hasked
    exact absurd hasked nofun
  | ok ignored => exact IgnoreRules.askable_of_ignores hignores

theorem coherent_build (h : Returns (p.build disk false) r) : Coherent r := by
  obtain ⟨paths, fs, hscan, hfs, rfl⟩ := exists_files_of_build h
  refine coherent_assemble (fun f hf => ?_) (fun f hf g hg hpath => ?_) _
  · obtain ⟨path, hpath, hindexes⟩ := mem_of_forall₂ hfs hf
    exact sound_of_indexes (askable_of_scan hscan path hpath) hindexes
  · obtain ⟨_, _, hf⟩ := mem_of_forall₂ hfs hf
    obtain ⟨_, _, hg⟩ := mem_of_forall₂ hfs hg
    exact eq_of_indexes hf hg hpath

/-- Only a path that the filter accepts is indexed anew. -/
theorem accepts_of_fresh {path' : Text} (h : p.changeOf disk filter r path = .ok (some (.fresh path'))) :
    path' = path ∧ filter.accepts path = .ok true := by
  obtain ⟨rfl, text, hdiffers⟩ := changeOf_eq_fresh_iff.mp h
  exact ⟨rfl, hdiffers.accepts⟩

namespace Finds
variable {paths : List Text} {found : List FileChange} {fresh : List IndexedFile}
  (h : p.Finds disk filter r paths found fresh)

theorem mem_reindexed : path ∈ found.filterMap FileChange.fresh? ↔ .fresh path ∈ found := by
  simp [FileChange.fresh?_eq_some]

theorem mem_deleted : path ∈ found.filterMap FileChange.gone? ↔ .gone path ∈ found := by
  simp [FileChange.gone?_eq_some]

include h

theorem mem_found {c : FileChange} : c ∈ found ↔ ∃ path ∈ paths, p.changeOf disk filter r path = .ok (some c) := by
  obtain ⟨⟨changes, hchanges, rfl⟩, _⟩ := h
  rw [List.mem_filterMap]
  constructor
  · rintro ⟨o, ho, rfl⟩
    exact mem_of_forall₂ hchanges ho
  · rintro ⟨path, hpath, hc⟩
    obtain ⟨o, ho, hchange⟩ := mem_of_forall₂ hchanges.flip hpath
    exact ⟨o, ho, Except.ok.inj (hchange.symm.trans hc)⟩

theorem mem_fresh {f : IndexedFile} (hf : f ∈ fresh) : .fresh f.path ∈ found ∧ p.Indexes disk f.path f := by
  obtain ⟨path, hpath, hindexes⟩ := mem_of_forall₂ h.indexed hf
  obtain rfl := path_of_indexes hindexes
  exact ⟨mem_reindexed.mp hpath, hindexes⟩

theorem exists_fresh (hpath : .fresh path ∈ found) : ∃ f ∈ fresh, f.path = path := by
  obtain ⟨f, hf, hindexes⟩ := mem_of_forall₂ h.indexed.flip (mem_reindexed.mpr hpath)
  exact ⟨f, hf, path_of_indexes hindexes⟩

omit h in
/-- An update finds what has become of paths if that can be told of each, and the fresh ones can be indexed. -/
theorem exists_of_changes (hchange : ∀ path ∈ paths, ∃ c, p.changeOf disk filter r path = .ok c)
    (hindexed : ∀ path ∈ paths, ∀ path', p.changeOf disk filter r path = .ok (some (.fresh path')) →
      ∃ f, p.Indexes disk path' f) : ∃ found fresh, p.Finds disk filter r paths found fresh := by
  obtain ⟨changes, hchanges⟩ := exists_forall₂ hchange
  have hfresh : ∀ path ∈ (changes.filterMap id).filterMap FileChange.fresh?, ∃ f, p.Indexes disk path f := by
    intro path hpath
    obtain ⟨c, hc, rfl⟩ := List.mem_filterMap.mp (mem_reindexed.mp hpath)
    obtain ⟨source, hsource, hc⟩ := mem_of_forall₂ hchanges hc
    exact hindexed source hsource path hc
  obtain ⟨fresh, hfresh⟩ := exists_forall₂ hfresh
  exact ⟨_, fresh, ⟨changes, hchanges, rfl⟩, hfresh⟩

omit h in
/-- A file of the update is one that has not changed or one that is indexed anew. -/
theorem mem_units {f : IndexedFile} : f ∈ (UpdateUnits.ofChanges r found fresh).units ↔
    (restore? r f.path = some f ∧ .fresh f.path ∉ found ∧ .gone f.path ∉ found) ∨ f ∈ fresh := by
  rw [UpdateUnits.ofChanges, List.mem_append, List.mem_filter, mem_restoreAll_iff, Bool.not_eq_true', List.elem_eq_mem,
    decide_eq_false_iff_not, List.mem_append, not_or, mem_reindexed, mem_deleted]

theorem sound_units (hr : Coherent r) : ∀ f ∈ (UpdateUnits.ofChanges r found fresh).units, f.Sound := by
  intro f hf
  cases mem_units.mp hf with
  | inl hkept => exact hr.sound_restored hkept.1
  | inr hf =>
    obtain ⟨hnew, hindexes⟩ := h.mem_fresh hf
    obtain ⟨source, _, hchange⟩ := h.mem_found.mp hnew
    obtain ⟨rfl, haccepts⟩ := accepts_of_fresh hchange
    exact sound_of_indexes (ProjectFilter.askable_of_accepts haccepts) hindexes

theorem one_of_units {f g : IndexedFile} (hf : f ∈ (UpdateUnits.ofChanges r found fresh).units)
    (hg : g ∈ (UpdateUnits.ofChanges r found fresh).units) (hpath : f.path = g.path) : f = g := by
  obtain ⟨hf, hunchanged, _⟩ | hf := mem_units.mp hf <;> obtain ⟨hg, hunchanged', _⟩ | hg := mem_units.mp hg
  · rw [hpath] at hf
    exact Option.some.inj (hf.symm.trans hg)
  · exact absurd (hpath ▸ (h.mem_fresh hg).1) hunchanged
  · exact absurd (hpath ▸ (h.mem_fresh hf).1) hunchanged'
  · exact eq_of_indexes (h.mem_fresh hf).2 (h.mem_fresh hg).2 hpath

theorem coherent (hr : Coherent r) : Coherent (Updated.ofChanges r found fresh).index := by
  rw [Updated.index_ofChanges]
  split
  · exact hr
  · exact coherent_assemble (h.sound_units hr) (fun f hf g hg => h.one_of_units hf hg) _

/-- The files of the update are recorded files that are not gone and those that are indexed anew. -/
theorem mem_paths_units (hr : Coherent r) : path ∈ (UpdateUnits.ofChanges r found fresh).units.map (·.path) ↔
    .fresh path ∈ found ∨ path ∈ r.files.keys ∧ .gone path ∉ found := by
  constructor
  · intro hpath
    obtain ⟨f, hf, rfl⟩ := List.mem_map.mp hpath
    obtain ⟨hkept, _, hthere⟩ | hf := mem_units.mp hf
    · obtain ⟨_, hrecord, _⟩ := exists_record_of_restore? hkept
      exact .inr ⟨Table.get?_isSome.mp (by rw [hrecord, Option.isSome_some]), hthere⟩
    · exact .inl (h.mem_fresh hf).1
  · intro hpath
    by_cases hnew : .fresh path ∈ found
    · obtain ⟨f, hf, rfl⟩ := h.exists_fresh hnew
      exact List.mem_map_of_mem (mem_units.mpr (.inr hf))
    · obtain ⟨hp, hthere⟩ := hpath.resolve_left hnew
      obtain ⟨g, hg, rfl⟩ := hr.exists_restored hp
      exact List.mem_map_of_mem (mem_units.mpr (.inl ⟨mem_restoreAll hg, hnew, hthere⟩))

/-- Recorded are the files that have not changed and those indexed anew. -/
theorem mem_keys (hr : Coherent r) : path ∈ (Updated.ofChanges r found fresh).index.files.keys ↔
    path ≠ Table.droppedKey ∧ (.fresh path ∈ found ∨ path ∈ r.files.keys ∧ .gone path ∉ found) := by
  have hdropped : path ∈ r.files.keys → path ≠ Table.droppedKey := fun hp he => hr.keyed (he ▸ hp)
  rw [Updated.index_ofChanges]
  split
  next hempty =>
    rw [List.isEmpty_iff.mp hempty]
    simpa using hdropped
  · rw [mem_keys_files, and_comm]
    exact and_congr_right fun _ => h.mem_paths_units hr

/-- The hash of a file is that of its text if it is indexed anew, and stays otherwise. -/
theorem hash_cases {hash : Text}
    (hh : Table.get? (Updated.ofChanges r found fresh).index.contentHashes path = some hash) :
    (∃ text, p.read? disk path = .ok (some text) ∧ contentHash text = hash) ∨
      Table.get? r.contentHashes path = some hash ∧ .fresh path ∉ found ∧ .gone path ∉ found := by
  rw [Updated.index_ofChanges] at hh
  split at hh
  next hempty =>
    rw [List.isEmpty_iff.mp hempty]
    exact .inr ⟨hh, List.not_mem_nil, List.not_mem_nil⟩
  · obtain ⟨f, hf, rfl, rfl⟩ := hash_of_file hh
    obtain ⟨hkept, hchanged⟩ | hf := mem_units.mp hf
    · obtain ⟨_, _, hhash, _⟩ := exists_record_of_restore? hkept
      exact .inr ⟨hhash, hchanged⟩
    · obtain ⟨text, hread, hof⟩ := (h.mem_fresh hf).2
      exact .inl ⟨text, hread, (owned_ofText hof).2.2.symm⟩

end Finds

/-- The indexes that a build and any updates after it come to, each on the disk of its time. -/
inductive Reached (p : Project) : ProjectIndex → Prop
  | built {disk : Disk} {r : ProjectIndex} : Returns (p.build disk false) r → Reached p r
  | updated {disk : Disk} {r : ProjectIndex} {changed : List Text} {u : Updated} :
    Reached p r → Returns (p.update disk r changed false) u → Reached p u.index

theorem coherent_update {changed : List Text} {u : Updated} (hr : Coherent r)
    (h : Returns (p.update disk r changed false) u) : Coherent u.index := by
  obtain ⟨filter, found, fresh, _, hfinds, rfl⟩ := returns_update_iff.mp h
  exact hfinds.coherent hr

theorem Reached.coherent (h : p.Reached r) : Coherent r := by
  induction h with
  | built h => exact coherent_build h
  | updated _ h ih => exact coherent_update ih h

section Repair
variable {stale : List Text}

theorem mem_candidates_of_askable (h : ∀ path ∈ stale, IgnoreRules.Askable path) :
    path ∈ p.candidates stale ↔ path ∈ stale := by
  have hkeys : stale.map (ProjectPath.ofPath p.root) = stale := by
    conv_rhs => rw [← List.map_id stale]
    exact List.map_congr_left fun path hpath => ProjectPath.ofPath_of_askable (h path hpath) p.root
  rw [candidates, hkeys, mem_sortedSet]

theorem exists_text_of_hashOf {now : Option Text} (h : p.hashOf disk path = .ok now) :
    ∃ text, p.read? disk path = .ok text ∧ text.map contentHash = now := by
  unfold hashOf at h
  cases hread : p.read? disk path with
  | error e =>
    rw [hread] at h
    exact absurd h nofun
  | ok text =>
    rw [hread] at h
    exact ⟨text, rfl, Except.ok.inj h⟩

theorem hashOf_eq {text : Option Text} (h : p.read? disk path = .ok text) :
    p.hashOf disk path = .ok (text.map contentHash) := by
  rw [hashOf, h]
  rfl

def Belongs (p : Project) (disk : Disk) (filter : ProjectFilter) (path : Text) : Prop :=
  filter.accepts path = .ok true ∧ ∃ text, p.read? disk path = .ok (some text)

/-- A stale file is indexed anew if it is one of the project, and else it is gone. -/
theorem changeOf_stale (hr : Coherent r) (hs : r.staleFiles (p.hashOf disk) = .ok stale) (filter : ProjectFilter)
    (hpath : path ∈ stale) :
    p.Belongs disk filter path ∧ p.changeOf disk filter r path = .ok (some (.fresh path)) ∨
      ¬ p.Belongs disk filter path ∧ p.changeOf disk filter r path = .ok (some (.gone path)) := by
  have hkey := hr.key_of_stale hs hpath
  obtain ⟨accepted, haccepts⟩ := filter.exists_accepts_of_askable (hr.askable path hkey)
  obtain ⟨now, hnow⟩ := hr.exists_now hs hkey
  obtain ⟨text, hread, rfl⟩ := exists_text_of_hashOf hnow
  obtain ⟨hash, hhash, hne⟩ := (hr.mem_stale hs hnow).mp hpath
  by_cases hbelongs : p.Belongs disk filter path
  · obtain ⟨haccepted, t, ht⟩ := hbelongs
    obtain rfl := Except.ok.inj (hread.symm.trans ht)
    have hdiffers : p.Differs disk filter r path t := ⟨⟨true, haccepted, ht⟩, fun he => hne (he.symm.trans hhash)⟩
    exact .inl ⟨⟨haccepted, t, ht⟩, changeOf_eq_fresh_iff.mpr ⟨rfl, t, hdiffers⟩⟩
  · refine .inr ⟨hbelongs, changeOf_eq_gone_iff.mpr ⟨rfl, ⟨accepted, haccepts, ?_⟩, .inl hkey⟩⟩
    cases accepted with
    | false => rfl
    | true =>
      cases text with
      | none => exact hread
      | some t => exact absurd ⟨haccepts, t, hread⟩ hbelongs

section Found
variable {found : List FileChange} {fresh : List IndexedFile} (hr : Coherent r)
  (hs : r.staleFiles (p.hashOf disk) = .ok stale) (h : p.Finds disk filter r (p.candidates stale) found fresh)
include hr hs h

theorem Finds.mem_found_iff {c : FileChange} : c ∈ found ↔ ∃ path ∈ stale,
    p.Belongs disk filter path ∧ c = .fresh path ∨ ¬ p.Belongs disk filter path ∧ c = .gone path := by
  have haskable : ∀ path ∈ stale, IgnoreRules.Askable path := fun path hpath =>
    hr.askable path (hr.key_of_stale hs hpath)
  rw [h.mem_found]
  refine exists_congr fun path => ?_
  rw [mem_candidates_of_askable haskable]
  refine and_congr_right fun hstale => ?_
  obtain ⟨hbelongs, hc⟩ | ⟨hbelongs, hc⟩ := changeOf_stale hr hs filter hstale
  · simp [hbelongs, hc, eq_comm]
  · simp [hbelongs, hc, eq_comm]

theorem Finds.fresh_mem_iff : .fresh path ∈ found ↔ path ∈ stale ∧ p.Belongs disk filter path := by
  rw [h.mem_found_iff hr hs]
  simp

theorem Finds.gone_mem_iff : .gone path ∈ found ↔ path ∈ stale ∧ ¬ p.Belongs disk filter path := by
  rw [h.mem_found_iff hr hs]
  simp

/-- A file of the project that was recorded stays so. -/
theorem Finds.kept (hpath : path ∈ r.files.keys) (hbelongs : p.Belongs disk filter path) :
    path ∈ (Updated.ofChanges r found fresh).index.files.keys := by
  rw [h.mem_keys hr, h.gone_mem_iff hr hs]
  exact ⟨fun he => hr.keyed (he ▸ hpath), .inr ⟨hpath, fun hgone => hgone.2 hbelongs⟩⟩

/-- A file that is not there any more is not recorded. -/
theorem Finds.removed (hpath : path ∈ r.files.keys) (hmissing : p.read? disk path = .ok none) :
    path ∉ (Updated.ofChanges r found fresh).index.files.keys := by
  have hnot : ¬ p.Belongs disk filter path := by
    rintro ⟨_, text, htext⟩
    exact absurd (hmissing.symm.trans htext) (by simp)
  obtain ⟨hash, hhash⟩ := hr.exists_hash hpath
  have hstale : path ∈ stale := (hr.mem_stale hs (hashOf_eq hmissing)).mpr ⟨hash, hhash, nofun⟩
  rw [h.mem_keys hr, h.fresh_mem_iff hr hs, h.gone_mem_iff hr hs]
  rintro ⟨_, hnew | hold⟩
  · exact hnot hnew.2
  · exact hold.2 ⟨hstale, hnot⟩

/-- Whatever is recorded has the hash that it has now. -/
theorem Finds.up_to_date : (Updated.ofChanges r found fresh).index.staleFiles (p.hashOf disk) = .ok [] := by
  have hcoherent := h.coherent hr
  refine staleFiles_eq_nil fun e he => ?_
  obtain ⟨text, htext, hhash⟩ | ⟨hhash, hnew, hgone⟩ := h.hash_cases (hcoherent.get?_of_mem he)
  · rw [hashOf_eq htext, Option.map_some, hhash]
  -- a file that is neither new nor gone is not stale
  · have hfresh : e.1 ∉ stale := by
      intro hstale
      by_cases hbelongs : p.Belongs disk filter e.1
      · exact hnew ((h.fresh_mem_iff hr hs).mpr ⟨hstale, hbelongs⟩)
      · exact hgone ((h.gone_mem_iff hr hs).mpr ⟨hstale, hbelongs⟩)
    have hkey : e.1 ∈ r.files.keys := hr.hashes ▸ Table.get?_isSome.mp (Option.isSome_iff_exists.mpr ⟨e.2, hhash⟩)
    obtain ⟨now, hnow⟩ := hr.exists_now hs hkey
    rw [hr.mem_stale hs hnow, not_exists] at hfresh
    rw [hnow, of_not_not fun hne => hfresh e.2 ⟨hhash, hne⟩]

/-- A symbol that is still recorded for a file which is gone has a name that another file lists. -/
theorem Finds.shared (hpath : path ∈ r.files.keys) (hmissing : p.read? disk path = .ok none) {q : Text}
    {s : SymbolRecord}
    (hsymbol : Table.get? (Updated.ofChanges r found fresh).index.symbols q = some s) (hfile : s.file = path) :
    ∃ other f, Table.get? (Updated.ofChanges r found fresh).index.files other = some f ∧ q ∈ f.symbols ∧
      (unit ':' ∈ path ∨ unit ':' ∈ other) := by
  subst hfile
  have hnew := h.coherent hr
  obtain ⟨other, f, hf, hq⟩ := (hnew.listed q s hsymbol).resolve_left fun hdropped => hr.keyed (hdropped ▸ hpath)
  have hother : s.file ≠ other := by
    rintro rfl
    exact h.removed hr hs hpath hmissing (Table.get?_isSome.mp (Option.isSome_iff_exists.mpr ⟨f, hf⟩))
  exact ⟨other, f, hf, hq, colon_mem_of_nameIn (hnew.symbols q s hsymbol).2 (hnew.named other f hf q hq) hother⟩

end Found

/-- An update with the stale files finds what has become of each, if those of the project can be indexed. -/
theorem exists_finds (hr : Coherent r) (hs : r.staleFiles (p.hashOf disk) = .ok stale) (filter : ProjectFilter)
    (hindexed : ∀ path ∈ stale, p.Belongs disk filter path → ∃ f, p.Indexes disk path f) :
    ∃ found fresh, p.Finds disk filter r (p.candidates stale) found fresh := by
  have hstale : ∀ path ∈ p.candidates stale, path ∈ stale := fun path hpath =>
    (mem_candidates_of_askable fun path hpath => hr.askable path (hr.key_of_stale hs hpath)).mp hpath
  refine Finds.exists_of_changes (fun path hpath => ?_) fun path hpath path' hnew => ?_
  · obtain ⟨_, hc⟩ | ⟨_, hc⟩ := changeOf_stale hr hs filter (hstale path hpath) <;> exact ⟨_, hc⟩
  -- what is fresh among the stale files is what the project has of them
  · obtain ⟨hbelongs, hc⟩ | ⟨_, hgone⟩ := changeOf_stale hr hs filter (hstale path hpath)
    · obtain ⟨rfl⟩ := hc.symm.trans hnew
      exact hindexed _ (hstale _ hpath) hbelongs
    · exact absurd (hgone.symm.trans hnew) (by simp)

/-- The update of an index with its stale files comes to a result where the files of the project among them can be
indexed, and nothing is stale in it. Recorded files of the project are still recorded. A file that is gone is not, and
no symbol is recorded for it unless another file lists the very name of the symbol. -/
theorem update_stale (hr : p.Reached r) (hfilter : p.filter disk = .ok filter)
    (hs : r.staleFiles (p.hashOf disk) = .ok stale)
    (hindexed : ∀ path ∈ stale, p.Belongs disk filter path → ∃ f, p.Indexes disk path f) :
    ∃ u, Returns (p.update disk r stale false) u ∧ u.index.staleFiles (p.hashOf disk) = .ok [] ∧
      (∀ path ∈ r.files.keys, p.Belongs disk filter path →
        path ∈ u.index.files.keys ∧ path ∈ u.index.contentHashes.keys) ∧
      ∀ path ∈ r.files.keys, p.read? disk path = .ok none →
        path ∉ u.index.files.keys ∧ path ∉ u.index.contentHashes.keys ∧
          ∀ q s, Table.get? u.index.symbols q = some s → s.file = path →
            ∃ other f, Table.get? u.index.files other = some f ∧ q ∈ f.symbols ∧
              (unit ':' ∈ path ∨ unit ':' ∈ other) := by
  have hcoherent := hr.coherent
  obtain ⟨found, fresh, hfinds⟩ := exists_finds hcoherent hs filter hindexed
  have hhashes := (hfinds.coherent hcoherent).hashes
  refine ⟨_, returns_update_iff.mpr ⟨filter, found, fresh, hfilter, hfinds, rfl⟩, hfinds.up_to_date hcoherent hs,
    fun path hpath hbelongs => ?_, fun path hpath hmissing => ?_⟩
  · have hkept := hfinds.kept hcoherent hs hpath hbelongs
    exact ⟨hkept, hhashes ▸ hkept⟩
  · have hremoved := hfinds.removed hcoherent hs hpath hmissing
    exact ⟨hremoved, hhashes ▸ hremoved,
      fun _ _ hsymbol hfile => hfinds.shared hcoherent hs hpath hmissing hsymbol hfile⟩

section Samples

theorem Contains.staleFiles_eq {files : List (Text × Text)} {fs : List IndexedFile} {disk₀ : Disk}
    (h : p.Contains disk₀ files fs) (hsorted : stale.Pairwise fun s t => lt s t = true)
    (hkeys : ∀ path ∈ stale, path ∈ files.map (·.1))
    (hnow : ∀ e ∈ files, ∃ text, p.read? disk e.1 = .ok text ∧
      (e.1 ∈ stale ↔ text.map contentHash ≠ some (contentHash e.2))) :
    (ofIndexed fs).staleFiles (p.hashOf disk) = .ok stale := by
  refine (coherent_build h.returns_build).staleFiles_eq hsorted (fun path hpath => ?_) fun path hash hhash => ?_
  · exact (keys_ofIndexed h.toIndexed).mem_iff.mpr (h.paths ▸ hkeys path hpath)
  · rw [h.hash_eq, Option.map_eq_some_iff] at hhash
    obtain ⟨text, htext, rfl⟩ := hhash
    obtain ⟨now, hread, hiff⟩ := hnow (path, text) (h.lookup_eq_some.mp htext)
    exact ⟨_, hashOf_eq hread, hiff⟩

theorem filter_sample {files : List (Text × Text)}
    (hload : (sampleDisk files).read? (Path.joinAll [sample.root, IgnoreRules.fileName]) = .ok none) :
    sample.filter (sampleDisk files) = .ok (ProjectFilter.ofRules sample.settings (IgnoreRules.ofLines [])) := by
  rw [Project.filter, load_eq hload]
  rfl

def secondFile : List (Text × Text) := [("b.ts", "export function g() {}\n")]

/-- The first of two files is gone and the second has changed. -/
theorem update_stale_secondFile : ∃ r u, sample.Reached r ∧
    r.staleFiles (sample.hashOf (sampleDisk secondFile)) = .ok ["a.ts", "b.ts"] ∧
      Returns (sample.update (sampleDisk secondFile) r ["a.ts", "b.ts"] false) u ∧
        u.index.staleFiles (sample.hashOf (sampleDisk secondFile)) = .ok [] ∧
          ofString "b.ts" ∈ u.index.files.keys ∧ ofString "a.ts" ∉ u.index.files.keys := by
  have hbefore : sample.Contains (sampleDisk twoFiles) twoFiles (indexAll sample.rules twoFiles) := by
    apply contains_sample <;> decide +kernel
  have hreached := Reached.built hbefore.returns_build
  have hfilter : sample.filter (sampleDisk secondFile) = _ := filter_sample (by decide +kernel)
  have hfirst : sample.read? (sampleDisk secondFile) "a.ts" = .ok none := by decide +kernel
  have hsecond : sample.read? (sampleDisk secondFile) "b.ts" = .ok (some "export function g() {}\n") := by
    decide +kernel
  have haccepts : (ProjectFilter.ofRules sample.settings (IgnoreRules.ofLines [])).accepts "b.ts" = .ok true := by
    decide +kernel
  have hkeys : ∀ path, path ∈ (ofIndexed (indexAll sample.rules twoFiles)).files.keys ↔ path ∈ twoFiles.map (·.1) :=
    fun path => by rw [(keys_ofIndexed hbefore.toIndexed).mem_iff, hbefore.paths]
  have hstale : (ofIndexed (indexAll sample.rules twoFiles)).staleFiles (sample.hashOf (sampleDisk secondFile)) =
      .ok ["a.ts", "b.ts"] := by
    refine hbefore.staleFiles_eq (by decide) (by decide)
      (List.forall_mem_cons.mpr ⟨⟨none, hfirst, by decide⟩, List.forall_mem_singleton.mpr ⟨_, hsecond, ?_⟩⟩)
    decide +kernel
  have hindexed : ∃ f, sample.Indexes (sampleDisk secondFile) "b.ts" f := by
    have hok : (ofText sample.rules "b.ts" "export function g() {}\n").isOk = true := by decide +kernel
    obtain ⟨f, hf⟩ := exists_of_isOk hok
    exact ⟨f, _, hsecond, hf⟩
  obtain ⟨u, hu, hfresh, hkept, hgone⟩ := update_stale hreached hfilter hstale (List.forall_mem_cons.mpr
    ⟨fun ⟨_, text, htext⟩ => absurd (hfirst.symm.trans htext) (by simp),
      List.forall_mem_singleton.mpr fun _ => hindexed⟩)
  exact ⟨_, u, hreached, hstale, hu, hfresh, (hkept "b.ts" ((hkeys _).mpr (by decide)) ⟨haccepts, _, hsecond⟩).1,
    (hgone "a.ts" ((hkeys _).mpr (by decide)) hfirst).1⟩

/-- A file is gone that had a symbol with the name of one of another file, and the other file keeps its record. -/
theorem update_stale_sharedName : ∃ r u q s, sample.Reached r ∧
    r.staleFiles (sample.hashOf (sampleDisk (sharedName.take 1))) = .ok ["a.ts:C.[/b.ts"] ∧
      sample.read? (sampleDisk (sharedName.take 1)) "a.ts:C.[/b.ts" = .ok none ∧
        Returns (sample.update (sampleDisk (sharedName.take 1)) r ["a.ts:C.[/b.ts"] false) u ∧
          Table.get? u.index.symbols q = some s ∧ s.file = "a.ts:C.[/b.ts" := by
  have hbefore : sample.Contains (sampleDisk sharedName) sharedName (indexAll sample.rules sharedName) := by
    apply contains_sample <;> decide +kernel
  have hreached := Reached.built hbefore.returns_build
  have hfilter : sample.filter (sampleDisk (sharedName.take 1)) = _ := filter_sample (by decide +kernel)
  have hkept : sample.read? (sampleDisk (sharedName.take 1)) "a.ts" = .ok (sharedName.head?.map (·.2)) := by
    decide +kernel
  have hgone : sample.read? (sampleDisk (sharedName.take 1)) "a.ts:C.[/b.ts" = .ok none := by decide +kernel
  have hstale : (ofIndexed (indexAll sample.rules sharedName)).staleFiles
      (sample.hashOf (sampleDisk (sharedName.take 1))) = .ok ["a.ts:C.[/b.ts"] :=
    hbefore.staleFiles_eq (by decide) (by decide) (List.forall_mem_cons.mpr
      ⟨⟨_, hkept, iff_of_false (by decide) fun hne => hne rfl⟩, List.forall_mem_singleton.mpr ⟨none, hgone, by decide⟩⟩)
  have hchange : sample.changeOf (sampleDisk (sharedName.take 1)) (ProjectFilter.ofRules sample.settings
      (IgnoreRules.ofLines [])) (ofIndexed (indexAll sample.rules sharedName)) "a.ts:C.[/b.ts" =
        .ok (some (.gone "a.ts:C.[/b.ts")) := by
    obtain ⟨⟨_, text, htext⟩, _⟩ | ⟨_, hc⟩ := changeOf_stale hreached.coherent hstale
      (ProjectFilter.ofRules sample.settings (IgnoreRules.ofLines [])) List.mem_cons_self
    · exact absurd (hgone.symm.trans htext) (by simp)
    · exact hc
  have hcandidates : sample.candidates ["a.ts:C.[/b.ts"] = ["a.ts:C.[/b.ts"] := by decide +kernel
  have hfinds : sample.Finds (sampleDisk (sharedName.take 1)) (ProjectFilter.ofRules sample.settings
      (IgnoreRules.ofLines [])) (ofIndexed (indexAll sample.rules sharedName)) (sample.candidates ["a.ts:C.[/b.ts"])
        [.gone "a.ts:C.[/b.ts"] [] :=
    ⟨⟨[some (.gone "a.ts:C.[/b.ts")], hcandidates ▸ .cons hchange .nil, rfl⟩, .nil⟩
  have hfacts :
      let fs := indexAll sample.rules sharedName
      let r := ofLinked (fs.map (relinked ⟨fs.map linkUnit⟩ fun _ => true))
      let us := UpdateUnits.ofChanges r [.gone "a.ts:C.[/b.ts"] []
      let r' := ofLinked (us.units.map (relinked ⟨us.units.map linkUnit⟩ us.affected.elem))
      fs.Pairwise (fun f g => IndexedFile.le f g = true) ∧ us.units.Pairwise (fun f g => IndexedFile.le f g = true) ∧
        (Table.get? r'.symbols "a.ts:C.[/b.ts:D.[/]/]").map (·.file) = some "a.ts:C.[/b.ts" := by
    decide +kernel
  obtain ⟨hsorted, hsorted', hsymbol⟩ := hfacts
  obtain ⟨s, hs, hfile⟩ := Option.map_eq_some_iff.mp hsymbol
  refine ⟨_, _, "a.ts:C.[/b.ts:D.[/]/]", s, hreached, hstale, hgone,
    returns_update_iff.mpr ⟨_, _, [], hfilter, hfinds, rfl⟩, ?_, hfile⟩
  rw [Updated.index_ofChanges, ofIndexed, assemble_eq_of_sorted hsorted, if_neg (by decide)]
  dsimp only
  rw [assemble_eq_of_sorted hsorted']
  exact hs

end Samples
end Repair
end Project
end AnnotationIndex
