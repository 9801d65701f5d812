import AnnotationIndex.Proofs.Frame
import AnnotationIndex.Proofs.IndexedFile
import Mathlib.Data.List.Pairwise

/-!
The files that a file reaches through imports and exports of exports, and with them all of its package.
Nothing else in a project has a part in the edges of the file.
-/
namespace AnnotationIndex
open Text

namespace LinkUnit
variable {u : LinkUnit}

def requests (u : LinkUnit) : List ModuleRequest :=
  u.imports.map (·.request) ++ u.exports.filterMap fun r => r.source.map fun specifier => ⟨specifier, false⟩

structure Owned (u : LinkUnit) : Prop where
  files : ∀ s ∈ u.symbols, s.file = u.path
  callers : ∀ c ∈ u.calls, ∀ q ∈ c.caller, q ∈ u.listed

instance (u : LinkUnit) : Decidable u.Owned :=
  decidable_of_iff ((∀ s ∈ u.symbols, s.file = u.path) ∧ ∀ c ∈ u.calls, ∀ q ∈ c.caller, q ∈ u.listed)
    ⟨fun h => ⟨h.1, h.2⟩, fun h => ⟨h.files, h.callers⟩⟩

theorem request_mem_requests {s : ImportStatement} (h : s ∈ u.imports) : s.request ∈ u.requests :=
  List.mem_append_left _ (List.mem_map_of_mem h)

/-- Names pass only through requests. -/
theorem passing_subset_requests {r : ModuleRequest} (h : r ∈ u.passing) : r ∈ u.requests := by
  obtain ⟨row, hrow, specifier, hs, rfl⟩ | ⟨s, hs, rfl⟩ := mem_passing h
  · exact List.mem_append_right _ (List.mem_filterMap.mpr ⟨row, hrow, by simp [hs]⟩)
  · exact request_mem_requests hs

def symbol? (u : LinkUnit) (q : Text) : Option SymbolRecord :=
  u.symbols.reverse.find? fun s => s.qualifiedName == q

theorem symbol?_mem {q : Text} {s : SymbolRecord} (h : u.symbol? q = some s) :
    s ∈ u.symbols ∧ s.qualifiedName = q :=
  ⟨List.mem_reverse.mp (List.mem_of_find?_eq_some h), by simpa using List.find?_some h⟩

theorem symbol?_isSome {q : Text} : (u.symbol? q).isSome = true ↔ q ∈ u.listed := by
  simp [symbol?, listed]

theorem symbol?_eq_none {q : Text} : u.symbol? q = none ↔ q ∉ u.listed := by
  rw [← symbol?_isSome, Bool.not_eq_true, Option.isSome_eq_false_iff, Option.isNone_iff_eq_none]

theorem exists_symbol? {q : Text} (hq : q ∈ u.listed) : ∃ s, u.symbol? q = some s :=
  Option.isSome_iff_exists.mp (symbol?_isSome.mpr hq)

end LinkUnit

/-- The index of a file is linked as a unit of its own. -/
theorem IndexedFile.Owned.linkUnit {f : IndexedFile} (h : f.Owned) : f.linkUnit.Owned :=
  ⟨h.files, h.callers⟩

def SymbolRecord.function (path name : Text) : SymbolRecord :=
  { qualifiedName := path ++ unit ':' :: name, name, kind := .function, file := path, lineSpan := ⟨1, 1⟩
    exported := true, container := none, signature := none, purpose := none, constraint := none
    annotations := [], callers := [], callees := [] }

namespace LinkTables
variable {t t' : LinkTables}

def NamesApart (t : LinkTables) : Prop := t.units.Pairwise fun u v => ∀ q ∈ u.listed, q ∉ v.listed

instance (t : LinkTables) : Decidable t.NamesApart := inferInstanceAs (Decidable (List.Pairwise _ _))

theorem NamesApart.eq (h : t.NamesApart) {u v : LinkUnit} (hu : u ∈ t.units) (hv : v ∈ t.units) {q : Text}
    (hqu : q ∈ u.listed) (hqv : q ∈ v.listed) : u = v := by
  by_cases he : u = v
  · exact he
  · have : Std.Symm fun u v : LinkUnit => ∀ q ∈ u.listed, q ∉ v.listed :=
      ⟨fun _ _ hd q hv hu => hd q hu hv⟩
    exact absurd hqv (h.forall hu hv he q hqu)

theorem symbol?_eq_findSome? (t : LinkTables) (q : Text) :
    t.symbol? q = t.units.reverse.findSome? fun u => u.symbol? q := by
  unfold symbol?
  induction t.units with
  | nil => rfl
  | cons u us ih =>
    rw [List.flatMap_cons, List.reverse_append, List.find?_append, ih, List.reverse_cons,
      List.findSome?_append]
    simp [LinkUnit.symbol?]

theorem exists_symbol? {q : Text} : (∃ s, t.symbol? q = some s) ↔ ∃ u ∈ t.units, q ∈ u.listed := by
  rw [← Option.isSome_iff_exists, symbol?_eq_findSome?, List.findSome?_isSome_iff]
  simp only [List.mem_reverse, LinkUnit.symbol?_isSome]

/-- A name that one unit alone lists is found in that unit. -/
theorem symbol?_of_listed (hn : t.NamesApart) {u : LinkUnit} (hu : u ∈ t.units) {q : Text}
    (hq : q ∈ u.listed) : t.symbol? q = u.symbol? q := by
  rw [symbol?_eq_findSome?]
  cases h : t.units.reverse.findSome? fun u => u.symbol? q with
  | none =>
    rw [List.findSome?_eq_none_iff] at h
    exact (h u (List.mem_reverse.mpr hu)).symm
  | some s =>
    obtain ⟨v, hv, hs⟩ := List.exists_of_findSome?_eq_some h
    have hqv : q ∈ v.listed := LinkUnit.symbol?_isSome.mp (by simp [hs])
    rw [hn.eq hu (List.mem_reverse.mp hv) hq hqv, hs]

/-- The paths that the unit `u` reaches: by way of requests, or as a file of its package. -/
inductive Reach (t : LinkTables) (u : LinkUnit) : Text → Prop where
  | self : Reach t u u.path
  | target {p target : Text} {v : LinkUnit} {r : ModuleRequest} (h : Reach t u p)
      (hv : t.unit? p = some v) (hr : r ∈ v.requests) (ht : target ∈ t.targets r p) : Reach t u target
  | sibling {p : Text} (hl : u.language ∈ packageLanguages) (hd : Path.directory p = Path.directory u.path)
      (hp : (t.unit? p).map (·.language) = some u.language) : Reach t u p

theorem Reach.unit {u : LinkUnit} {p : Text} (h : t.Reach u p) (hu : t.unit? u.path = some u) :
    ∃ v ∈ t.units, v.path = p ∧ t.unit? p = some v := by
  have found : (t.unit? p).isSome = true := by
    cases h with
    | self => simp [hu]
    | target _ _ _ ht => exact unit?_isSome.mpr (mem_targets ht).1
    | sibling _ _ hp =>
      obtain ⟨v, hv, _⟩ := Option.map_eq_some_iff.mp hp
      simp [hv]
  obtain ⟨v, hv⟩ := Option.isSome_iff_exists.mp found
  exact ⟨v, (unit?_mem hv).1, (unit?_mem hv).2, hv⟩

def InPackage (t : LinkTables) (u : LinkUnit) (p : Text) : Prop :=
  Path.directory p = Path.directory u.path ∧ (t.unit? p).map (·.language) = some u.language

theorem mem_siblings {u : LinkUnit} {p : Text} :
    p ∈ t.siblings u.path u.language ↔ t.InPackage u p ∧ p ≠ u.path := by
  have hmem : (t.unit? p).map (·.language) = some u.language → p ∈ t.units.map (·.path) := by
    intro hl
    obtain ⟨v, hv, _⟩ := Option.map_eq_some_iff.mp hl
    exact unit?_isSome.mp (by simp [hv])
  simp only [siblings, List.mem_filter, FileSet.mem_inDirectory, InPackage, files]
  simp only [Bool.not_eq_true', Bool.or_eq_false_iff, beq_eq_false_iff_ne, bne_eq_false_iff_eq, ne_eq]
  constructor
  · rintro ⟨⟨_, hd⟩, hne, hl⟩
    exact ⟨⟨hd, hl⟩, hne⟩
  · rintro ⟨⟨hd, hl⟩, hne⟩
    exact ⟨⟨hmem hl, hd⟩, hne, hl⟩

theorem siblings_congr {u : LinkUnit} (h : ∀ p, t.InPackage u p ↔ t'.InPackage u p) :
    t.siblings u.path u.language = t'.siblings u.path u.language := by
  have increasing : ∀ t : LinkTables,
      (t.siblings u.path u.language).Pairwise fun a b => lt a b = true :=
    fun t => (pairwise_sortedSet _).filter _
  refine eq_of_mem_iff (increasing t) (increasing t') fun p => ?_
  rw [mem_siblings, mem_siblings, h p]

/-- The edges of a file are the same in two projects that agree on the files that it reaches, on what the requests
of these files name, and on the files of its package. The units that it reaches are units of files: their symbols
and calls are their own, as they are whenever a file has been indexed. -/
theorem link_frame (t t' : LinkTables) (u : LinkUnit) (hu : t.unit? u.path = some u)
    (hn : t.NamesApart) (hn' : t'.NamesApart)
    (howned : ∀ p v, t.Reach u p → t.unit? p = some v → v.Owned)
    (hunits : ∀ p, t.Reach u p → t.unit? p = t'.unit? p)
    (htargets : ∀ p v, t.Reach u p → t.unit? p = some v → ∀ r ∈ v.requests, t.targets r p = t'.targets r p)
    (hpackage : u.language ∈ packageLanguages → ∀ p, t.InPackage u p ↔ t'.InPackage u p) :
    t.link u = t'.link u := by
  have hu' : t'.unit? u.path = some u := (hunits u.path .self).symm.trans hu
  have hlisted : ∀ q, t.Listed (t.Reach u) q →
      ∃ v : LinkUnit, v.Owned ∧ t.Reach u v.path ∧ t.symbol? q = v.symbol? q ∧ t'.symbol? q = v.symbol? q := by
    rintro q ⟨p, v, hp, hv, hq⟩
    have hv' : t'.unit? p = some v := (hunits p hp).symm.trans hv
    refine ⟨v, howned p v hp hv, (unit?_mem hv).2 ▸ hp, ?_, ?_⟩
    · exact symbol?_of_listed hn (unit?_mem hv).1 hq
    · exact symbol?_of_listed hn' (unit?_mem hv').1 hq
  have hframe : Frame t t' (t.Reach u) := by
    refine ⟨fun p hp => by rw [hunits p hp], fun v hp hv r hr => ?_, fun v hp hv r hr target ht => ?_⟩
    · exact htargets v.path v hp hv r (LinkUnit.passing_subset_requests hr)
    · exact .target hp hv (LinkUnit.passing_subset_requests hr) ht
  refine FileFrame.link_eq (F := t.Reach u)
    ⟨hframe, fun _ hp => hp, hframe.view, .self, hu, hu', ?_, ?_, ?_, ?_, ?_, ?_⟩
  · exact fun s hs => htargets u.path u .self hu s.request (LinkUnit.request_mem_requests hs)
  · exact fun s hs target ht => .target .self hu (LinkUnit.request_mem_requests hs) ht
  · intro hl
    have hl : u.language ∈ packageLanguages := List.elem_iff.mp hl
    refine ⟨siblings_congr (hpackage hl), fun p hp => ?_⟩
    obtain ⟨⟨hd, hlang⟩, _⟩ := mem_siblings.mp hp
    exact .sibling hl hd hlang
  · intro q hq
    obtain ⟨v, _, _, hs, hs'⟩ := hlisted q hq
    rw [hs, hs']
  · intro q hq s hsym
    obtain ⟨v, howns, hreach, hs, _⟩ := hlisted q hq
    rw [howns.files s (LinkUnit.symbol?_mem (hs ▸ hsym)).1]
    exact hreach
  · exact (howned u.path u .self hu).callers

def caller : LinkUnit :=
  { path := "a.ts", language := "typescript", symbols := [.function "a.ts" "g"], exports := []
    imports := [.ofNames "./b" 1 [⟨"f", "f"⟩]], calls := [⟨"f", 2, some "a.ts:g"⟩] }

def callee (path : Text) : LinkUnit :=
  { path, language := "typescript", symbols := [.function path "f"], exports := [.own "f" "f"], imports := []
    calls := [] }

theorem link_frame_caller :
    link ⟨[caller, callee "b.ts"]⟩ caller = link ⟨[caller, callee "b.ts", callee "c.ts"]⟩ caller ∧
      (link ⟨[caller, callee "b.ts"]⟩ caller).callees = [(ofString "a.ts:g", [ofString "b.ts:f"])] := by
  refine ⟨link_frame _ _ _ (by decide) (by decide) (by decide) ?_ ?_ ?_ ?_, by decide +kernel⟩
  · intro p v _ hv
    have howned : ∀ u ∈ [caller, callee "b.ts"], u.Owned := by decide
    exact howned v (unit?_mem hv).1
  · intro p hp
    obtain ⟨v, hv, rfl, _⟩ := hp.unit (by decide)
    have hunits : ∀ u ∈ [caller, callee "b.ts"], unit? ⟨[caller, callee "b.ts"]⟩ u.path =
        unit? ⟨[caller, callee "b.ts", callee "c.ts"]⟩ u.path := by decide
    exact hunits v hv
  · intro p v _ hv
    have htargets : ∀ u ∈ [caller, callee "b.ts"], ∀ r ∈ u.requests,
        targets ⟨[caller, callee "b.ts"]⟩ r u.path =
          targets ⟨[caller, callee "b.ts", callee "c.ts"]⟩ r u.path := by decide +kernel
    exact (unit?_mem hv).2 ▸ htargets v (unit?_mem hv).1
  · exact fun hl => absurd hl (by decide)

end LinkTables
end AnnotationIndex
