import AnnotationIndex.Proofs.Update
import AnnotationIndex.Proofs.Work

/-!
Updating a project instead of building it. The changed paths may name more than has changed, and anything may have
changed at once.
-/
namespace AnnotationIndex
open Text

namespace Project
open Work ProjectIndex IndexedFile
variable {p : Project} {disk : Disk} {files before after : List (Text × Text)} {fs fs' : List IndexedFile}
  {changed : List Text}

/-- The files that a scan of a disk finds, with the texts that are read there and what indexing makes of them. -/
structure Contains (p : Project) (disk : Disk) (files : List (Text × Text)) (fs : List IndexedFile) : Prop where
  scanned : scan disk p.root p.settings = .ok (files.map (·.1))
  readable : ∀ e ∈ files, p.read? disk e.1 = .ok (some e.2)
  indexed : files.mapM (fun (path, text) => ofText p.rules path text) = .ok fs
  distinct : (files.map (·.1)).Nodup
  keyed : ∀ e ∈ files, e.1 ≠ Table.droppedKey

namespace Contains

theorem toIndexed (h : p.Contains disk files fs) : Indexed fs := indexed_of_mapM h.distinct h.keyed h.indexed

theorem paths (h : p.Contains disk files fs) : fs.map (·.path) = files.map (·.1) :=
  paths_of_mapM h.indexed

theorem lookup_eq_some (h : p.Contains disk files fs) {path text : Text} :
    files.lookup path = some text ↔ (path, text) ∈ files :=
  ⟨Table.mem_of_get?, Table.get?_of_mem (t := files) (e := (path, text)) h.distinct⟩

theorem lookup_isSome (h : p.Contains disk files fs) {path : Text} :
    (files.lookup path).isSome = true ↔ path ∈ fs.map (·.path) := by
  rw [h.paths]
  exact Table.get?_isSome (t := files)

/-- The files of a project are those that indexing makes of its texts. -/
theorem mem_iff (h : p.Contains disk files fs) {f : IndexedFile} :
    f ∈ fs ↔ ∃ text, files.lookup f.path = some text ∧ ofText p.rules f.path text = .ok f := by
  constructor
  · intro hf
    obtain ⟨text, hmem, hof⟩ := exists_text_of_mapM h.indexed hf
    exact ⟨text, h.lookup_eq_some.mpr hmem, hof⟩
  · rintro ⟨text, htext, hof⟩
    have hmem : f.path ∈ fs.map (·.path) := h.lookup_isSome.mp (by rw [htext, Option.isSome_some])
    obtain ⟨g, hg, hpath⟩ := List.mem_map.mp hmem
    obtain ⟨text', hmem', hgof⟩ := exists_text_of_mapM h.indexed hg
    rw [hpath] at hmem' hgof
    obtain rfl := Option.some.inj (htext.symm.trans (h.lookup_eq_some.mpr hmem'))
    exact Except.ok.inj (hgof.symm.trans hof) ▸ hg

theorem regular (h : p.Contains disk files fs) (hp : Extractor.Importing p.extractors.all) (hl : Legible fs) :
    Regular fs := by
  have hfile : ∀ f ∈ fs, ∃ text, ofText p.rules f.path text = .ok f := fun f hf =>
    (h.mem_iff.mp hf).imp fun _ ht => ht.2
  refine { toIndexed := h.toIndexed, toLegible := hl, named := ?_, importing := ?_, language := ?_ }
  · intro f hf
    obtain ⟨text, ht⟩ := hfile f hf
    exact namedIn_ofText ht
  · intro f hf
    obtain ⟨text, ht⟩ := hfile f hf
    obtain ⟨hsourced, hjava⟩ := sourced_ofText hp ht
    exact LinkUnit.importing_of_sourced hsourced hjava
  · intro f hf
    obtain ⟨text, ht⟩ := hfile f hf
    exact (ofText_outline ht).2.2

theorem indexes (h : p.Contains disk files fs) {path text : Text} {f : IndexedFile}
    (htext : (path, text) ∈ files) (hf : ofText p.rules path text = .ok f) : p.Indexes disk path f :=
  ⟨text, h.readable _ htext, hf⟩

theorem returns_build (h : p.Contains disk files fs) : Returns (p.build disk false) (ofIndexed fs) := by
  have hall : List.Forall₂ (fun path f => Returns (p.indexFile disk path) f) (files.map (·.1)) fs := by
    have hmem := (List.forall₂_and_left _ _).mpr ⟨fun e he => he, forall₂_of_mapM_ok h.indexed⟩
    exact List.forall₂_map_left_iff.mpr (hmem.imp fun e f hf => returns_indexFile_of_indexes (h.indexes hf.1 hf.2))
  unfold build
  refine (returns_check h.scanned).bind ((returns_say _ _ _).bind (returns_goOn.bind ?_))
  refine (returns_mapM hall).bind ((returns_sayTimed _ _ _).bind ?_)
  exact (returns_sayTimed _ _ _).bind ((returns_sayCounts _).bind (Returns.pure _))

theorem has_file (h : p.Contains disk files fs) (path : Text) :
    (ofIndexed fs).files.has path = (files.lookup path).isSome := by
  rw [Bool.eq_iff_iff, Table.has_iff, h.lookup_isSome]
  exact (keys_ofIndexed h.toIndexed).mem_iff

theorem hash_eq (h : p.Contains disk files fs) (path : Text) :
    Table.get? (ofIndexed fs).contentHashes path = (files.lookup path).map contentHash := by
  cases htext : files.lookup path with
  | none =>
    refine hash_ofIndexed_eq_none h.toIndexed fun hm => ?_
    have hsome := h.lookup_isSome.mpr hm
    rw [htext] at hsome
    exact absurd hsome Bool.false_ne_true
  | some text =>
    obtain ⟨f, hf, rfl⟩ := List.mem_map.mp (h.lookup_isSome.mp (by rw [htext, Option.isSome_some]))
    obtain ⟨text', htext', hof⟩ := h.mem_iff.mp hf
    obtain rfl := Option.some.inj (htext.symm.trans htext')
    rw [hash_ofIndexed h.toIndexed hf, (owned_ofText hof).2.2, Option.map_some]

end Contains

section Changes

def isFresh (before after : List (Text × Text)) (path : Text) : Bool :=
  (after.lookup path).isSome && before.lookup path != after.lookup path

/-- Whether a file is gone. A name that every record has is taken for a file that was there. -/
def isGone (before after : List (Text × Text)) (path : Text) : Bool :=
  (after.lookup path).isNone && ((before.lookup path).isSome || Table.isInherited path)

def changeBetween (before after : List (Text × Text)) (path : Text) : Option FileChange :=
  if isFresh before after path then some (.fresh path)
  else if isGone before after path then some (.gone path)
  else none

/-- An edit of a project: the changed paths name every file that has been added, has changed or is gone, and of each of
them the filter and the disk tell whether it is a file of the project now, and with which text. -/
structure Edit (p : Project) (disk : Disk) (before after : List (Text × Text)) (changed : List Text) : Prop where
  seen : ∃ filter, p.filter disk = .ok filter ∧ ∀ path ∈ p.candidates changed, ∃ accepted,
    filter.accepts path = .ok accepted ∧ (if accepted then p.read? disk path else .ok none) = .ok (after.lookup path)
  covered : ∀ path, path ∉ p.candidates changed → before.lookup path = after.lookup path
  apart : ∀ path t t', before.lookup path = some t → after.lookup path = some t' →
    contentHash t = contentHash t' → t = t'

namespace Edit

theorem lookup_eq (h : p.Edit disk before after changed) {path : Text}
    (hn : changeBetween before after path = none ∨ path ∉ p.candidates changed) :
    before.lookup path = after.lookup path := by
  refine hn.elim (fun hn => ?_) (h.covered path)
  unfold changeBetween isFresh isGone at hn
  cases hb : before.lookup path <;> cases ha : after.lookup path <;> simp_all

theorem changeOf_of_text {filter : ProjectFilter} {previous : ProjectIndex} {path : Text} {accepted : Bool}
    {text : Option Text} (haccepts : filter.accepts path = .ok accepted)
    (hread : (if accepted then p.read? disk path else .ok none) = .ok text) :
    p.changeOf disk filter previous path = .ok (text.elim
      (if previous.files.has path || Table.isInherited path then some (.gone path) else none) fun t =>
        if Table.get? previous.contentHashes path == some (contentHash t) then none else some (.fresh path)) := by
  unfold changeOf
  cases accepted with
  | false =>
    obtain rfl : none = text := Except.ok.inj hread
    simp [haccepts, Except.mapError, bind, Except.bind, pure, Except.pure]
  | true =>
    have hread : p.read? disk path = .ok text := hread
    simp only [haccepts, hread, Except.mapError, bind, Except.bind, pure, Except.pure, if_true]
    cases text <;> rfl

/-- The change of a path is the one between the two states. -/
theorem changeOf_eq (h : p.Edit disk before after changed) {disk₀ : Disk} (hb : p.Contains disk₀ before fs)
    {filter : ProjectFilter} {path : Text} {accepted : Bool} (haccepts : filter.accepts path = .ok accepted)
    (hread : (if accepted then p.read? disk path else .ok none) = .ok (after.lookup path)) :
    p.changeOf disk filter (ofIndexed fs) path = .ok (changeBetween before after path) := by
  rw [changeOf_of_text haccepts hread]
  have hsame : ∀ t, after.lookup path = some t →
      ((before.lookup path).map contentHash == some (contentHash t)) = (before.lookup path == some t) := by
    intro t ht
    cases hold : before.lookup path with
    | none => rfl
    | some t' =>
      rw [Option.map_some, Bool.eq_iff_iff, beq_iff_eq, beq_iff_eq]
      exact ⟨fun he => congrArg some (h.apart path t' t hold ht (Option.some.inj he)), fun he => by
        rw [Option.some.inj he]⟩
  cases ha : after.lookup path with
  | none =>
    simp only [changeBetween, isFresh, isGone, ha, hb.has_file, Option.isSome_none, Bool.false_and, Option.isNone_none,
      Bool.true_and, Option.elim_none]
    rfl
  | some t =>
    simp only [changeBetween, isFresh, isGone, ha, hb.hash_eq, hsame t ha, Option.isSome_some, Bool.true_and,
      Option.elim_some]
    cases hbeq : before.lookup path == some t <;> simp_all [bne]

abbrev reindexed (p : Project) (before after : List (Text × Text)) (changed : List Text) : List Text :=
  (p.candidates changed).filter (isFresh before after)

abbrev deleted (p : Project) (before after : List (Text × Text)) (changed : List Text) : List Text :=
  (p.candidates changed).filter (isGone before after)

theorem isGone_of_isFresh {path : Text} (h : isFresh before after path = true) : isGone before after path = false := by
  unfold isFresh at h
  unfold isGone
  cases ha : after.lookup path <;> simp_all

theorem filterMap_fresh (paths : List Text) :
    (paths.filterMap (changeBetween before after)).filterMap FileChange.fresh? =
      paths.filter (isFresh before after) := by
  rw [List.filterMap_filterMap, ← List.filterMap_eq_filter]
  refine List.filterMap_congr fun path _ => ?_
  unfold changeBetween
  cases hfresh : isFresh before after path with
  | true => simp [FileChange.fresh?, Option.guard, hfresh]
  | false => cases isGone before after path <;> simp [FileChange.fresh?, Option.guard, hfresh]

theorem filterMap_gone (paths : List Text) :
    (paths.filterMap (changeBetween before after)).filterMap FileChange.gone? = paths.filter (isGone before after) := by
  rw [List.filterMap_filterMap, ← List.filterMap_eq_filter]
  refine List.filterMap_congr fun path _ => ?_
  unfold changeBetween
  cases hfresh : isFresh before after path with
  | true => simp [FileChange.gone?, Option.guard, isGone_of_isFresh hfresh]
  | false => cases hgone : isGone before after path <;> simp [FileChange.gone?, Option.guard, hgone]

theorem lookup_eq_of_not_mem (h : p.Edit disk before after changed) {path : Text}
    (hn : path ∉ reindexed p before after changed ++ deleted p before after changed) :
    before.lookup path = after.lookup path := by
  refine h.lookup_eq ?_
  by_cases hc : path ∈ p.candidates changed
  · simp only [List.mem_append, List.mem_filter, hc, true_and, not_or, Bool.not_eq_true] at hn
    exact .inl (by simp [changeBetween, hn.1, hn.2])
  · exact .inr hc

variable {disk₀ : Disk}

theorem edited (h : p.Edit disk before after changed) (hp : Extractor.Importing p.extractors.all)
    (hb : p.Contains disk₀ before fs) (ha : p.Contains disk after fs') (hl : Legible fs) (hl' : Legible fs') :
    Edited fs fs' (reindexed p before after changed ++ deleted p before after changed) := by
  refine ⟨hb.regular hp hl, ha.regular hp hl', fun f hn => ?_⟩
  rw [hb.mem_iff, ha.mem_iff, h.lookup_eq_of_not_mem hn]

abbrev units (p : Project) (previous : ProjectIndex) (before after : List (Text × Text)) (changed : List Text)
    (fresh : List IndexedFile) : UpdateUnits :=
  ⟨previous, (restoreAll previous).filter (fun f =>
      !(reindexed p before after changed ++ deleted p before after changed).elem f.path) ++ fresh,
    reindexed p before after changed, deleted p before after changed⟩

theorem holds (h : p.Edit disk before after changed) (hp : Extractor.Importing p.extractors.all)
    (hb : p.Contains disk₀ before fs) (ha : p.Contains disk after fs') (hl : Legible fs) (hl' : Legible fs')
    {fresh : List IndexedFile}
    (hfresh : fresh.map (·.path) = reindexed p before after changed) (hmem : ∀ f ∈ fresh, f ∈ fs') :
    (units p (ofIndexed fs) before after changed fresh).Holds fs fs' := by
  have hedited := h.edited hp hb ha hl hl'
  have hnodup : (reindexed p before after changed).Nodup := (nodup_sortedSet _).filter _
  have hkept : ∀ g, g ∈ (restoreAll (ofIndexed fs)).filter (fun f =>
      !(reindexed p before after changed ++ deleted p before after changed).elem f.path) ↔
        g.path ∉ reindexed p before after changed ++ deleted p before after changed ∧
          restore? (ofIndexed fs) g.path = some g := by
    intro g
    rw [List.mem_filter, mem_restoreAll_iff, Bool.not_eq_true', List.elem_eq_mem, decide_eq_false_iff_not, and_comm]
  refine ⟨hedited, rfl, ?_, fun g => ?_, fun f hf hc => ?_⟩
  · rw [List.map_append, List.nodup_append]
    refine ⟨?_, hfresh ▸ hnodup, ?_⟩
    · have hrestored := (paths_restoreAll hb.toIndexed).nodup_iff.mpr hb.toIndexed.paths
      exact hrestored.sublist (List.filter_sublist.map _)
    · rintro path hold path' hnew rfl
      obtain ⟨g, hg, rfl⟩ := List.mem_map.mp hold
      rw [hfresh] at hnew
      exact ((hkept g).mp hg).1 (List.mem_append_left _ hnew)
  · rw [List.mem_append, hkept]
    refine or_congr_right ⟨fun hg => ⟨?_, hmem g hg⟩, ?_⟩
    · have hpath : g.path ∈ fresh.map (·.path) := List.mem_map_of_mem hg
      rwa [hfresh] at hpath
    rintro ⟨hg, hnew⟩
    have hg : g.path ∈ reindexed p before after changed := hg
    rw [← hfresh] at hg
    obtain ⟨g', hg', hpath⟩ := List.mem_map.mp hg
    exact List.inj_on_of_nodup_map ha.toIndexed.paths (hmem g' hg') hnew hpath ▸ hg'
  · cases List.mem_append.mp hc with
    | inl hc => exact hc
    | inr hc =>
      have hgone := (List.mem_filter.mp hc).2
      have hsome := ha.lookup_isSome.mpr (List.mem_map_of_mem hf)
      unfold isGone at hgone
      rw [Bool.and_eq_true, Option.isNone_iff_eq_none] at hgone
      rw [hgone.1] at hsome
      exact absurd hsome Bool.false_ne_true

/-- Every path to index anew is indexed as a file of the updated project. -/
theorem exists_fresh (before : List (Text × Text)) (changed : List Text) (ha : p.Contains disk after fs') :
    ∃ fresh : List IndexedFile, List.Forall₂ (p.Indexes disk) (reindexed p before after changed) fresh ∧
      fresh.map (·.path) = reindexed p before after changed ∧ ∀ f ∈ fresh, f ∈ fs' := by
  have hfile : ∀ path ∈ reindexed p before after changed, ∃ f, f ∈ fs' ∧ f.path = path ∧ p.Indexes disk path f := by
    intro path hpath
    have hsome : (after.lookup path).isSome = true := (Bool.and_eq_true_iff.mp (List.mem_filter.mp hpath).2).1
    obtain ⟨f, hf, rfl⟩ := List.mem_map.mp (ha.lookup_isSome.mp hsome)
    obtain ⟨text, htext, hof⟩ := ha.mem_iff.mp hf
    exact ⟨f, hf, rfl, ha.indexes (ha.lookup_eq_some.mp htext) hof⟩
  obtain ⟨fresh, hall⟩ := exists_forall₂ hfile
  refine ⟨fresh, hall.imp fun _ _ h => h.2.2, ?_, fun f hf => ?_⟩
  · rw [← List.forall₂_eq_eq_eq, List.forall₂_map_left_iff]
    exact hall.flip.imp fun _ _ h => h.2.1
  · obtain ⟨_, _, hmem, _⟩ := mem_of_forall₂ hall hf
    exact hmem

/-- Where nothing has changed the index is that of the updated project. -/
theorem ofIndexed_eq_of_unchanged (h : p.Edit disk before after changed) (hb : p.Contains disk₀ before fs)
    (ha : p.Contains disk after fs')
    (hnone : ((p.candidates changed).filterMap (changeBetween before after)).isEmpty = true) :
    ofIndexed fs = ofIndexed fs' := by
  refine ofIndexed_congr hb.toIndexed ha.toIndexed fun f => ?_
  rw [hb.mem_iff, ha.mem_iff, h.lookup_eq]
  by_cases hc : f.path ∈ p.candidates changed
  · exact .inl (List.filterMap_eq_nil_iff.mp (List.isEmpty_iff.mp hnone) _ hc)
  · exact .inr hc

/-- An update comes to a result. It is the index that was there if nothing has changed, and otherwise it is assembled
from what has not changed and what is indexed anew. -/
theorem returns_update (h : p.Edit disk before after changed) (hb : p.Contains disk₀ before fs)
    (ha : p.Contains disk after fs') :
    ∃ u fresh, Returns (p.update disk (ofIndexed fs) changed false) u ∧
      fresh.map (·.path) = reindexed p before after changed ∧ (∀ f ∈ fresh, f ∈ fs') ∧
      (u.index = ofIndexed fs ∧ ofIndexed fs = ofIndexed fs' ∨
        let us := units p (ofIndexed fs) before after changed fresh
        u.index = assemble us.units us.affected.elem ∧
          u.relinked = sortedSet (us.affected.filter fun path => (us.unit? path).isSome)) := by
  obtain ⟨filter, hfilter, hseen⟩ := h.seen
  obtain ⟨fresh, hindexed, hpaths, hmem⟩ := exists_fresh before changed ha
  let found := (p.candidates changed).filterMap (changeBetween before after)
  have hchanges : List.Forall₂ (fun path c => p.changeOf disk filter (ofIndexed fs) path = .ok c) (p.candidates changed)
      ((p.candidates changed).map (changeBetween before after)) := by
    rw [List.forall₂_map_right_iff, List.forall₂_same]
    intro path hpath
    obtain ⟨accepted, haccepts, hread⟩ := hseen path hpath
    exact h.changeOf_eq hb haccepts hread
  have hfinds : p.Finds disk filter (ofIndexed fs) (p.candidates changed) found fresh :=
    ⟨⟨_, hchanges, List.filterMap_map⟩, (filterMap_fresh (p.candidates changed)).symm ▸ hindexed⟩
  refine ⟨_, fresh, returns_update_iff.mpr ⟨filter, found, fresh, hfilter, hfinds, rfl⟩, hpaths, hmem, ?_⟩
  cases hnone : found.isEmpty with
  | true =>
    rw [Updated.ofChanges, if_pos hnone]
    exact .inl ⟨rfl, h.ofIndexed_eq_of_unchanged hb ha hnone⟩
  | false =>
    rw [Updated.ofChanges, if_neg (by rw [hnone]; exact Bool.false_ne_true), UpdateUnits.ofChanges, filterMap_fresh,
      filterMap_gone]
    exact .inr ⟨rfl, rfl⟩

end Edit
end Changes

/-- An update gives the index of a full build if and only if every file that sees one which passes names on, and whose
imports now name other files, is linked again or keeps its edges. The update looks for the files that saw a changed
path, and not for those that come to see one through a file between them. -/
theorem update_eq_build_iff {disk₀ : Disk} (h : p.Edit disk before after changed)
    (hp : Extractor.Importing p.extractors.all) (hb : p.Contains disk₀ before fs) (ha : p.Contains disk after fs')
    (hl : Legible fs) (hl' : Legible fs') :
    ∃ r r' u, Returns (p.build disk₀ false) r ∧ Returns (p.build disk false) r' ∧
      Returns (p.update disk r changed false) u ∧
      (u.index = r' ↔ ∀ w, r.passesOn w = true → Retargeted r r' w →
        ∀ path ∈ r.reach [w], path ∉ u.relinked → SameEdges r r' path) := by
  obtain ⟨u, fresh, hu, hpaths, hmem, hcases⟩ := h.returns_update hb ha
  refine ⟨ofIndexed fs, ofIndexed fs', u, hb.returns_build, ha.returns_build, hu, ?_⟩
  obtain ⟨hindex, hsame⟩ | ⟨hindex, hrelinked⟩ := hcases
  · rw [hindex, hsame]
    refine ⟨fun _ w _ _ path _ _ r r' hr hr' => ?_, fun _ => rfl⟩
    obtain rfl := Option.some.inj (hr.symm.trans hr')
    exact ⟨rfl, fun _ _ => rfl⟩
  · have hholds := h.holds hp hb ha hl hl' hpaths hmem
    -- a file of the project that is not linked again is one that is not affected
    have hlinked : ∀ f ∈ fs', f.path ∈ u.relinked ↔
        f.path ∈ (Edit.units p (ofIndexed fs) before after changed fresh).affected := by
      intro f hf
      obtain ⟨g, hg, hpath⟩ := List.mem_map.mp (hholds.perm_paths.mem_iff.mpr (List.mem_map_of_mem hf))
      rw [hrelinked, mem_sortedSet, List.mem_filter, ← hpath, hholds.unit?_eq hg, Option.isSome_some, and_iff_left rfl]
    rw [hindex, hholds.assemble_eq_iff_retargeted]
    refine forall₄_congr fun w _ _ path => forall_congr' fun _ => ?_
    by_cases hpath : path ∈ fs'.map (·.path)
    · obtain ⟨f, hf, rfl⟩ := List.mem_map.mp hpath
      rw [hlinked f hf]
    · have hgone : SameEdges (ofIndexed fs) (ofIndexed fs') path := by
        intro r r' _ hr'
        have hkey := Table.get?_isSome.mp (Option.isSome_iff_exists.mpr ⟨r', hr'⟩)
        exact absurd ((keys_ofIndexed ha.toIndexed).mem_iff.mp hkey) hpath
      exact ⟨fun _ _ => hgone, fun _ _ => hgone⟩

section Samples

theorem scan_eq {disk : Disk} {root : Text} {c : Configuration} {rules : IgnoreRules}
    (hload : IgnoreRules.load disk root = .ok rules) (hglobs : c.included.any (·.isEmpty) = false)
    (hopen : (c.searches .standard).find? (fun s => (disk.pathsUnder root).any s.blockedBy) = none) {kept : List Text}
    (hkept : (c.found .standard (disk.pathsUnder root)).filterM
      (fun p => ((rules.ignores p).map (!·)).mapError ScanFault.ignored) = .ok kept)
    (hsorted : (kept.filter (· != c.cachePath)).Pairwise fun s t => Text.le s t = true) :
    scan disk root c = .ok (kept.filter (· != c.cachePath)) := by
  unfold scan scanWith
  simp only [hload, hglobs, Except.mapError, bind, Except.bind, pure, Except.pure] at hkept ⊢
  simp only [hopen, Bool.false_eq_true, if_false]
  rw [hkept]
  simp only [List.mergeSort_of_pairwise hsorted]

theorem load_eq {disk : Disk} {root : Text}
    (h : disk.read? (Path.joinAll [root, IgnoreRules.fileName]) = .ok none) :
    IgnoreRules.load disk root = .ok (IgnoreRules.ofLines []) := by
  rw [IgnoreRules.load, h]
  rfl

def sample : Project := ⟨"/p", .standard⟩

def sampleDisk (files : List (Text × Text)) : Disk := ⟨files.map fun e => ("/p/" ++ e.1, e.2)⟩

theorem contains_sample {files : List (Text × Text)}
    (hload : (sampleDisk files).read? (Path.joinAll [sample.root, IgnoreRules.fileName]) = .ok none)
    (hopen : (sample.settings.searches .standard).find?
      (fun s => ((sampleDisk files).pathsUnder sample.root).any s.blockedBy) = none)
    (hfound : (sample.settings.found .standard ((sampleDisk files).pathsUnder sample.root)).filterM (fun p =>
      (((IgnoreRules.ofLines []).ignores p).map (!·)).mapError ScanFault.ignored) = .ok (files.map (·.1)))
    (hpaths : (files.map (·.1)).filter (· != sample.settings.cachePath) = files.map (·.1))
    (hsorted : (files.map (·.1)).Pairwise fun s t => Text.lt s t = true)
    (hread : ∀ e ∈ files, sample.read? (sampleDisk files) e.1 = .ok (some e.2))
    (hindexed : (files.mapM fun (path, text) => ofText sample.rules path text).isOk = true)
    (hkeyed : ∀ e ∈ files, e.1 ≠ Table.droppedKey) :
    sample.Contains (sampleDisk files) files (indexAll sample.rules files) := by
  refine ⟨?_, hread, indexAll_eq hindexed, hsorted.imp fun h => (lt_iff.mp h).2, hkeyed⟩
  have hscan := scan_eq (load_eq hload) (by decide) hopen hfound
  rw [hpaths] at hscan
  exact hscan (hsorted.imp fun h => (lt_iff.mp h).1)

theorem edit_sample {before after : List (Text × Text)} {changed : List Text}
    (hload : (sampleDisk after).read? (Path.joinAll [sample.root, IgnoreRules.fileName]) = .ok none)
    (hseen : ∀ path ∈ sample.candidates changed,
      (ProjectFilter.ofRules sample.settings (IgnoreRules.ofLines [])).accepts path = .ok true ∧
        sample.read? (sampleDisk after) path = .ok (after.lookup path))
    (hkept : ∀ e ∈ before ++ after, e.1 ∉ sample.candidates changed → before.lookup e.1 = after.lookup e.1)
    (hsame : ∀ e ∈ before, ∀ e' ∈ after, e.1 = e'.1 → e.2 = e'.2) :
    sample.Edit (sampleDisk after) before after changed := by
  refine ⟨⟨_, ?_, fun path hpath => ⟨true, hseen path hpath⟩⟩, fun path hpath => ?_, fun path t t' ht ht' _ => ?_⟩
  · rw [filter, load_eq hload]
    rfl
  · by_cases hm : path ∈ (before ++ after).map (·.1)
    · obtain ⟨e, he, rfl⟩ := List.mem_map.mp hm
      exact hkept e he hpath
    · rw [List.map_append, List.mem_append, not_or] at hm
      rw [show before.lookup path = none from Table.get?_eq_none.mpr hm.1,
        show after.lookup path = none from Table.get?_eq_none.mpr hm.2]
  · exact hsame (path, t) (Table.mem_of_get? ht) (path, t') (Table.mem_of_get? ht') rfl

/-- A file is added that another one imports. -/
theorem update_eq_build_added : ∃ r r' u, Returns (sample.build (sampleDisk (twoFiles.take 1)) false) r ∧
    Returns (sample.build (sampleDisk twoFiles) false) r' ∧
      Returns (sample.update (sampleDisk twoFiles) r ["b.ts"] false) u ∧ u.index = r' := by
  have hedit : sample.Edit (sampleDisk twoFiles) (twoFiles.take 1) twoFiles ["b.ts"] := by
    apply edit_sample <;> decide +kernel
  have hbefore : sample.Contains (sampleDisk (twoFiles.take 1)) (twoFiles.take 1)
      (indexAll sample.rules (twoFiles.take 1)) := by
    apply contains_sample <;> decide +kernel
  have hafter : sample.Contains (sampleDisk twoFiles) twoFiles (indexAll sample.rules twoFiles) := by
    apply contains_sample <;> decide +kernel
  have hfiles :
      let fs := indexAll sample.rules (twoFiles.take 1)
      let r := ofLinked (fs.map (relinked ⟨fs.map linkUnit⟩ fun _ => true))
      fs.Pairwise (fun f g => IndexedFile.le f g = true) ∧ Legible fs ∧ Legible (indexAll sample.rules twoFiles) ∧
        ∀ e ∈ r.files, r.reexports e.2 = false := by
    decide +kernel
  obtain ⟨hsorted, hlegible, hlegible', hnone⟩ := hfiles
  obtain ⟨r, r', u, hr, hr', hu, hiff⟩ :=
    update_eq_build_iff hedit Extractor.importing_builtIn hbefore hafter hlegible hlegible'
  refine ⟨r, r', u, hr, hr', hu, hiff.mpr fun w hw => ?_⟩
  obtain rfl := hr.unique hbefore.returns_build
  rw [ofIndexed, assemble_eq_of_sorted hsorted] at hw
  obtain ⟨f, hf, hreexports⟩ := (Option.any_eq_true _ _).mp hw
  rw [hnone _ (Table.mem_of_get? hf)] at hreexports
  exact absurd hreexports Bool.false_ne_true

def waiting : List (Text × Text) := [
  ("f.ts", "import { x } from './m';
"),
  ("m.ts", "export { x } from './lib';
")]

def served : List (Text × Text) := [
  ("f.ts", "import { x } from './m';
"),
  ("lib.ts", "export function x() {}
"),
  ("m.ts", "export { x } from './lib';
")]

/-- When the file is added, the import stays where it was. -/
theorem update_ne_build_served : sample.Edit (sampleDisk served) waiting served ["lib.ts"] ∧
    ∃ r r' u, Returns (sample.build (sampleDisk waiting) false) r ∧
      Returns (sample.build (sampleDisk served) false) r' ∧
        Returns (sample.update (sampleDisk served) r ["lib.ts"] false) u ∧ u.index ≠ r' := by
  have hedit : sample.Edit (sampleDisk served) waiting served ["lib.ts"] := by
    apply edit_sample <;> decide +kernel
  have hbefore : sample.Contains (sampleDisk waiting) waiting (indexAll sample.rules waiting) := by
    apply contains_sample <;> decide +kernel
  have hafter : sample.Contains (sampleDisk served) served (indexAll sample.rules served) := by
    apply contains_sample <;> decide +kernel
  have hfiles :
      let fs := indexAll sample.rules waiting
      let fs' := indexAll sample.rules served
      let r := ofLinked (fs.map (relinked ⟨fs.map linkUnit⟩ fun _ => true))
      let r' := ofLinked (fs'.map (relinked ⟨fs'.map linkUnit⟩ fun _ => true))
      fs.Pairwise (fun f g => IndexedFile.le f g = true) ∧ fs'.Pairwise (fun f g => IndexedFile.le f g = true) ∧
        Legible fs ∧ Legible fs' ∧ Edit.reindexed sample waiting served ["lib.ts"] = ["lib.ts"] ∧
        ("f.ts" : Text) ∈ fs.map (·.path) ∧ ("f.ts" : Text) ∈ fs'.map (·.path) ∧
        (∀ g ∈ fs', g.path = "lib.ts" →
          ("f.ts" : Text) ∉ (Edit.units sample r waiting served ["lib.ts"] [g]).affected) ∧
        (Table.get? r.files "f.ts").map (·.imports) ≠ (Table.get? r'.files "f.ts").map (·.imports) := by
    decide +kernel
  obtain ⟨hsorted, hsorted', hlegible, hlegible', hreindexed, hold, hnew, hmissed, himports⟩ := hfiles
  rw [← assemble_eq_of_sorted hsorted, ← assemble_eq_of_sorted hsorted'] at himports
  rw [← assemble_eq_of_sorted hsorted] at hmissed
  obtain ⟨u, fresh, hu, hpaths, hmem, hcases⟩ := hedit.returns_update hbefore hafter
  have hholds := hedit.holds Extractor.importing_builtIn hbefore hafter hlegible hlegible' hpaths hmem
  refine ⟨hedit, _, _, u, hbefore.returns_build, hafter.returns_build, hu, fun heq => himports ?_⟩
  obtain ⟨hindex, hsame⟩ | ⟨hindex, _⟩ := hcases
  · exact congrArg (fun r => (Table.get? r.files "f.ts").map (·.imports)) hsame
  -- only the added file is indexed anew
  · rw [hreindexed] at hpaths
    obtain ⟨g, rfl, hpath⟩ := List.map_eq_singleton_iff.mp hpaths
    have hn := hmissed g (hmem g List.mem_cons_self) hpath
    obtain ⟨f, hf, hfpath⟩ := List.mem_map.mp hold
    obtain ⟨f', hf', hfpath'⟩ := List.mem_map.mp hnew
    obtain ⟨r, hr, _⟩ := file_ofIndexed hbefore.toIndexed hf
    obtain ⟨r', hr', _⟩ := file_ofIndexed hafter.toIndexed hf'
    rw [← hfpath'] at hn
    have hsame := hholds.assemble_eq_iff.mp (hindex.symm.trans heq) f' hf' hn
    rw [hfpath] at hr
    rw [hfpath'] at hr' hsame
    have hedges := (hsame r r' hr hr').1
    rw [ofIndexed] at hr hr'
    rw [hr, hr', Option.map_some, Option.map_some, hedges]

end Samples
end Project
end AnnotationIndex
