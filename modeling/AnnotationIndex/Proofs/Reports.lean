import AnnotationIndex.Proofs.Repair

/-!
What an update reports and what it leaves alone. Of the keys of the changed paths it tells those that have another
text than the recorded one, and those that are files of the project no more. Where there are neither, the index
stays as it is.
-/
namespace AnnotationIndex
open Text

namespace Updated
variable {r : ProjectIndex} {found : List FileChange} {fresh : List IndexedFile} {path : Text}

theorem lists_ofChanges (r : ProjectIndex) (found : List FileChange) (fresh : List IndexedFile) :
    (ofChanges r found fresh).reindexed = found.filterMap FileChange.fresh? ∧
      (ofChanges r found fresh).deleted = found.filterMap FileChange.gone? := by
  unfold ofChanges
  split
  next hempty =>
    rw [List.isEmpty_iff.mp hempty]
    exact ⟨rfl, rfl⟩
  · exact ⟨rfl, rfl⟩

/-- An update that finds changes reports one. -/
theorem eq_nil_of_ofChanges (hreindexed : (ofChanges r found fresh).reindexed = [])
    (hdeleted : (ofChanges r found fresh).deleted = []) : found = [] := by
  rw [(lists_ofChanges r found fresh).1, List.filterMap_eq_nil_iff] at hreindexed
  rw [(lists_ofChanges r found fresh).2, List.filterMap_eq_nil_iff] at hdeleted
  refine List.eq_nil_iff_forall_not_mem.mpr fun c hc => ?_
  cases c with
  | fresh path => exact absurd (hreindexed _ hc) nofun
  | gone path => exact absurd (hdeleted _ hc) nofun

theorem pairwise_relinked : (ofChanges r found fresh).relinked.Pairwise fun s t => lt s t = true := by
  unfold ofChanges
  split
  · exact List.Pairwise.nil
  · exact pairwise_sortedSet _

/-- Linked again are the affected files that are still there. -/
theorem mem_relinked : path ∈ (ofChanges r found fresh).relinked ↔ found ≠ [] ∧
    path ∈ (UpdateUnits.ofChanges r found fresh).affected ∧
      path ∈ (UpdateUnits.ofChanges r found fresh).units.map (·.path) := by
  unfold ofChanges
  split
  next hempty => simp [List.isEmpty_iff.mp hempty]
  next hfound =>
    have hfound : found ≠ [] := fun he => hfound (List.isEmpty_iff.mpr he)
    rw [mem_sortedSet, List.mem_filter, and_iff_right hfound]
    simp [UpdateUnits.unit?]

end Updated

namespace Project
open Work ProjectIndex IndexedFile
variable {p : Project} {disk : Disk} {filter : ProjectFilter} {r : ProjectIndex} {path : Text}

structure Reports (p : Project) (disk : Disk) (filter : ProjectFilter) (r : ProjectIndex) (changed : List Text)
    (u : Updated) : Prop where
  reindexed_sorted : u.reindexed.Pairwise fun s t => lt s t = true
  reindexed : ∀ path, path ∈ u.reindexed ↔
    path ∈ changed.map (ProjectPath.ofPath p.root) ∧ ∃ text, p.Differs disk filter r path text
  deleted_sorted : u.deleted.Pairwise fun s t => lt s t = true
  deleted : ∀ path, path ∈ u.deleted ↔ path ∈ changed.map (ProjectPath.ofPath p.root) ∧ p.Missed disk filter r path
  unchanged : u.reindexed = [] → u.deleted = [] → u = ⟨r, [], [], []⟩
  relinked_sorted : u.relinked.Pairwise fun s t => lt s t = true
  relinked : ∀ path ∈ u.relinked, path ∈ u.index.files.keys ∨ path = Table.droppedKey ∧ path ∈ u.reindexed
  reindexed_relinked : ∀ path ∈ u.reindexed, path ∈ u.relinked
  files : ∀ path, path ∈ u.index.files.keys ↔
    path ≠ Table.droppedKey ∧ (path ∈ u.reindexed ∨ path ∈ r.files.keys ∧ path ∉ u.deleted)

namespace Finds
variable {changed : List Text} {found : List FileChange} {fresh : List IndexedFile}

theorem sorted (h : p.Finds disk filter r (p.candidates changed) found fresh) :
    found.Pairwise fun c c' => lt c.path c'.path = true := by
  obtain ⟨⟨changes, hchanges, rfl⟩, _⟩ := h
  exact List.pairwise_map.mp ((pairwise_sortedSet _).sublist (sublist_of_changes hchanges))

variable (h : p.Finds disk filter r (p.candidates changed) found fresh)
include h

theorem fresh_mem_iff_differs : .fresh path ∈ found ↔
    path ∈ changed.map (ProjectPath.ofPath p.root) ∧ ∃ text, p.Differs disk filter r path text := by
  simp only [h.mem_found, changeOf_eq_fresh_iff, candidates, mem_sortedSet]
  constructor
  · rintro ⟨_, hpath, rfl, hdiffers⟩
    exact ⟨hpath, hdiffers⟩
  · rintro ⟨hpath, hdiffers⟩
    exact ⟨_, hpath, rfl, hdiffers⟩

theorem gone_mem_iff_missed : .gone path ∈ found ↔
    path ∈ changed.map (ProjectPath.ofPath p.root) ∧ p.Missed disk filter r path := by
  simp only [h.mem_found, changeOf_eq_gone_iff, candidates, mem_sortedSet]
  constructor
  · rintro ⟨_, hpath, rfl, hmissed⟩
    exact ⟨hpath, hmissed⟩
  · rintro ⟨hpath, hmissed⟩
    exact ⟨_, hpath, rfl, hmissed⟩

theorem reports (hr : Coherent r) : p.Reports disk filter r changed (Updated.ofChanges r found fresh) := by
  have hreindexed : ∀ path, path ∈ (Updated.ofChanges r found fresh).reindexed ↔ .fresh path ∈ found := fun path => by
    rw [(Updated.lists_ofChanges r found fresh).1, mem_reindexed]
  have hdeleted : ∀ path, path ∈ (Updated.ofChanges r found fresh).deleted ↔ .gone path ∈ found := fun path => by
    rw [(Updated.lists_ofChanges r found fresh).2, mem_deleted]
  constructor
  case reindexed_sorted =>
    rw [(Updated.lists_ofChanges r found fresh).1]
    refine List.Pairwise.filterMap _ (fun c c' hlt s hs t ht => ?_) h.sorted
    rwa [FileChange.fresh?_eq_some.mp hs, FileChange.fresh?_eq_some.mp ht] at hlt
  case reindexed => exact fun path => (hreindexed path).trans h.fresh_mem_iff_differs
  case deleted_sorted =>
    rw [(Updated.lists_ofChanges r found fresh).2]
    refine List.Pairwise.filterMap _ (fun c c' hlt s hs t ht => ?_) h.sorted
    rwa [FileChange.gone?_eq_some.mp hs, FileChange.gone?_eq_some.mp ht] at hlt
  case deleted => exact fun path => (hdeleted path).trans h.gone_mem_iff_missed
  case unchanged =>
    intro hnew hgone
    rw [Updated.eq_nil_of_ofChanges hnew hgone]
    rfl
  case relinked_sorted => exact Updated.pairwise_relinked
  case relinked =>
    intro path hpath
    have hunit := (h.mem_paths_units hr).mp (Updated.mem_relinked.mp hpath).2.2
    rw [h.mem_keys hr, hreindexed]
    -- the name that no table takes is linked without being recorded, and only if it is indexed anew
    by_cases hdropped : path = Table.droppedKey
    · exact .inr ⟨hdropped, hunit.resolve_right fun hold => hr.keyed (hdropped ▸ hold.1)⟩
    · exact .inl ⟨hdropped, hunit⟩
  case reindexed_relinked =>
    intro path hpath
    have hnew := (hreindexed path).mp hpath
    refine Updated.mem_relinked.mpr ⟨List.ne_nil_of_mem hnew, ?_, (h.mem_paths_units hr).mpr (.inl hnew)⟩
    exact List.mem_append_left _ (List.mem_append_left _ (List.mem_append_left _ (mem_reindexed.mpr hnew)))
  case files =>
    intro path
    rw [h.mem_keys hr, hreindexed, hdeleted]

end Finds

section Updates
variable {changed : List Text} {u : Updated}

end Updates

section Samples

end Samples
end Project
end AnnotationIndex
