import AnnotationIndex.Link.Edges
import AnnotationIndex.Proofs.Search
import Mathlib.Data.List.Basic

/-!
What linking depends on. The search for a name stays among the files to which requests lead, and the
edges of a file follow from these files alone, whatever else is in the project.
-/
namespace AnnotationIndex
open Text

structure UnitView where
  path : Text
  language : Text
  exports : List ExportRow
  imports : List ImportStatement
  calls : List CallRecord
  symbolNamed : Text → Option Text

structure SymbolSite where
  name : Text
  file : Text
  container : Option Text

def SymbolRecord.site (s : SymbolRecord) : SymbolSite := ⟨s.name, s.file, s.container⟩

theorem findSome?_congr {α β : Type} {as : List α} {f g : α → Option β} (h : ∀ a ∈ as, f a = g a) :
    as.findSome? f = as.findSome? g := by
  rw [← List.head?_filterMap, List.filterMap_congr h, List.head?_filterMap]

theorem findSome?_skip {α β : Type} (skip : α → Bool) (f : α → Option β) (as : List α) :
    (as.findSome? fun a => if skip a then none else f a) = (as.filter fun a => !skip a).findSome? f := by
  induction as with
  | nil => rfl
  | cons a rest ih =>
    cases h : skip a with
    | true => simp [h, ih]
    | false => simp [h, List.findSome?_cons, ih]

namespace LinkUnit
variable {u u' : LinkUnit}

def view (u : LinkUnit) : UnitView :=
  { path := u.path, language := u.language, exports := u.exports, imports := u.imports, calls := u.calls
    symbolNamed := u.symbolNamed }

theorem binding?_congr (h : u.view = u'.view) : u.binding? = u'.binding? := by
  have hi : u.imports = u'.imports := congrArg UnitView.imports h
  funext name
  rw [binding?, binding?, hi]

theorem askRow_congr (h : u.view = u'.view) : u.askRow = u'.askRow := by
  have hp : u.path = u'.path := congrArg UnitView.path h
  have hs : u.symbolNamed = u'.symbolNamed := congrArg UnitView.symbolNamed h
  funext row
  simp only [askRow, hp, hs, binding?_congr h]

theorem askStar_congr (h : u.view = u'.view) : u.askStar = u'.askStar := by
  have hp : u.path = u'.path := congrArg UnitView.path h
  funext name row
  simp only [askStar, hp]

theorem askName_congr (h : u.view = u'.view) : u.askName = u'.askName := by
  have he : u.exports = u'.exports := congrArg UnitView.exports h
  funext name
  simp only [askName, he, askRow_congr h, askStar_congr h]

end LinkUnit

namespace LinkTables
variable {t t' : LinkTables} {F G : Text → Prop}

def Listed (t : LinkTables) (F : Text → Prop) (q : Text) : Prop :=
  ∃ p u, F p ∧ t.unit? p = some u ∧ q ∈ u.listed

theorem Listed.mono {q : Text} (h : t.Listed F q) (hsub : ∀ p, F p → G p) : t.Listed G q := by
  obtain ⟨p, u, hp, hu, hq⟩ := h
  exact ⟨p, u, hsub p hp, hu, hq⟩

/-- On the files in `F` the two projects look the same, and no name passes into these from outside. -/
structure Frame (t t' : LinkTables) (F : Text → Prop) : Prop where
  view : ∀ p, F p → (t.unit? p).map (·.view) = (t'.unit? p).map (·.view)
  targets : ∀ u, F u.path → t.unit? u.path = some u → ∀ r ∈ u.passing,
    t.targets r u.path = t'.targets r u.path
  closed : ∀ u, F u.path → t.unit? u.path = some u → ∀ r ∈ u.passing, ∀ target ∈ t.targets r u.path, F target

namespace Frame
variable {k : ExportKey}

theorem inquiry_eq (h : Frame t t' F) (hk : F k.path) : t.inquiry k = t'.inquiry k := by
  have hv := h.view k.path hk
  unfold inquiry
  cases hu : t.unit? k.path with
  | none =>
    rw [hu, Option.map_none, eq_comm, Option.map_eq_none_iff] at hv
    rw [hv]
  | some u =>
    rw [hu, Option.map_some, eq_comm, Option.map_eq_some_iff] at hv
    obtain ⟨u', hu', hv⟩ := hv
    rw [hu']
    dsimp only
    rw [LinkUnit.askName_congr hv]

theorem asks (h : Frame t t' F) (hk : F k.path) :
    (t.inquiry k).Asks t.targets (fun r p => t.targets r p = t'.targets r p) (fun next => F next.path)
      (t.Listed F) := by
  have own : ∀ u, t.unit? k.path = some u → F u.path ∧ t.unit? u.path = some u := by
    intro u hu
    rw [(unit?_mem hu).2]
    exact ⟨hk, hu⟩
  refine asks_inquiry (fun u hu r hr => ?_) (fun u hu r hr target ht n _ => ?_) fun u hu q hq => ?_
  · exact h.targets u (own u hu).1 (own u hu).2 r hr
  · exact h.closed u (own u hu).1 (own u hu).2 r hr target ht
  · exact ⟨k.path, u, hk, hu, hq⟩

/-- Searches among the files in `F` stay there and find the same in both projects. -/
theorem search_eq (h : Frame t t' F) {fuel : Nat} {visiting : List Text} (hk : F k.path) :
    t.search fuel visiting k = t'.search fuel visiting k ∧
      (t.search fuel visiting k).Within (t.Listed F) := by
  induction fuel generalizing visiting k with
  | zero => exact ⟨rfl, Lookup.within_cut _⟩
  | succ fuel ih =>
    rw [search, search]
    split
    · exact ⟨rfl, Lookup.within_cut _⟩
    · rw [← h.inquiry_eq hk]
      refine ⟨Inquiry.eval_congr (h.asks hk) (fun _ _ hr => hr) fun next hnext => ih hnext, ?_⟩
      exact Inquiry.eval_within (h.asks hk) fun next hnext => (ih hnext).2

theorem search_root_eq (h : Frame t t' F) (hk : F k.path) :
    t.search t.searchBound [] k = t'.search t'.searchBound [] k ∧
      (t.search t.searchBound [] k).Within (t.Listed F) := by
  have hl := search_of_searchBound_le (k := k) (Nat.le_max_left t.searchBound t'.searchBound)
  have hr := search_of_searchBound_le (k := k) (Nat.le_max_right t.searchBound t'.searchBound)
  rw [← hl, ← hr]
  exact h.search_eq hk

theorem resolveExport_eq (h : Frame t t' F) {path : Text} (hp : F path) (name : Text) :
    t.resolveExport path name = t'.resolveExport path name :=
  congrArg Lookup.value (h.search_root_eq (k := ⟨path, name⟩) hp).1

end Frame

def siblings (t : LinkTables) (path language : Text) : List Text :=
  (t.files.inDirectory (Path.directory path)).filter fun p =>
    !(p == path || ((t.unit? p).map (·.language)) != some language)

theorem packageSymbol_eq (t : LinkTables) (u : LinkUnit) (name : Text) :
    t.packageSymbol u name =
      if !packageLanguages.elem u.language then none
      else (t.siblings u.path u.language).findSome? fun p => t.symbolNamed p name := by
  rw [siblings, ← findSome?_skip]
  rfl

/-- A frame around a file: searches that start from its imports stay among the files in `F`, and the files in `G` are
these, the file itself and its package. -/
structure FileFrame (t t' : LinkTables) (F G : Text → Prop) (u u' : LinkUnit) : Prop where
  frame : Frame t t' F
  searched : ∀ p, F p → G p
  views : ∀ p, G p → (t.unit? p).map (·.view) = (t'.unit? p).map (·.view)
  mem : G u.path
  left : t.unit? u.path = some u
  right : t'.unit? u.path = some u'
  targets : ∀ s ∈ u.imports, t.targets s.request u.path = t'.targets s.request u.path
  closed : ∀ s ∈ u.imports, ∀ target ∈ t.targets s.request u.path, F target
  package : packageLanguages.elem u.language = true →
    t.siblings u.path u.language = t'.siblings u.path u.language ∧ ∀ p ∈ t.siblings u.path u.language, G p
  symbols : ∀ q, t.Listed G q → (t.symbol? q).map (·.site) = (t'.symbol? q).map (·.site)
  files : ∀ q, t.Listed G q → ∀ s, t.symbol? q = some s → G s.file
  callers : ∀ c ∈ u.calls, ∀ q ∈ c.caller, q ∈ u.listed

namespace FileFrame
variable {u u' : LinkUnit} (h : FileFrame t t' F G u u')
include h

theorem view_eq : u.view = u'.view := by
  have hv := h.views u.path h.mem
  rw [h.left, h.right] at hv
  exact Option.some.inj hv

theorem path_eq : u'.path = u.path := (congrArg UnitView.path h.view_eq).symm

theorem imports_eq : u'.imports = u.imports := (congrArg UnitView.imports h.view_eq).symm

theorem listed_of_mem {q : Text} (hq : q ∈ u.listed) : t.Listed G q := ⟨u.path, u, h.mem, h.left, hq⟩

theorem symbolNamed_eq {p : Text} (hp : G p) (name : Text) : t.symbolNamed p name = t'.symbolNamed p name := by
  have hv := congrArg (Option.bind · fun v => v.symbolNamed name) (h.views p hp)
  rw [Option.bind_map, Option.bind_map] at hv
  exact hv

omit h in
theorem listed_of_symbolNamed {p name q : Text} (hp : G p) (hq : t.symbolNamed p name = some q) :
    t.Listed G q := by
  obtain ⟨v, hv, hq⟩ := Option.bind_eq_some_iff.mp hq
  exact ⟨p, v, hp, hv, LinkUnit.symbolNamed_listed hq⟩

theorem packageSymbol_eq (name : Text) : t.packageSymbol u name = t'.packageSymbol u' name := by
  have hl : u'.language = u.language := (congrArg UnitView.language h.view_eq).symm
  rw [LinkTables.packageSymbol_eq, LinkTables.packageSymbol_eq, hl, h.path_eq]
  cases he : packageLanguages.elem u.language with
  | false => rfl
  | true =>
    obtain ⟨hs, hG⟩ := h.package he
    rw [← hs]
    exact findSome?_congr fun p hp => h.symbolNamed_eq (hG p hp) name

theorem listed_of_packageSymbol {name q : Text} (hq : t.packageSymbol u name = some q) : t.Listed G q := by
  rw [LinkTables.packageSymbol_eq] at hq
  cases he : packageLanguages.elem u.language with
  | false =>
    rw [he] at hq
    exact nomatch hq
  | true =>
    rw [he] at hq
    obtain ⟨p, hp, hq⟩ := List.exists_of_findSome?_eq_some hq
    exact listed_of_symbolNamed ((h.package he).2 p hp) hq

theorem imported_eq {s : ImportStatement} (hs : s ∈ u.imports) (name : Text) :
    (Inquiry.imported u.path s.request name).eval t.targets (t.search t.searchBound []) =
        (Inquiry.imported u.path s.request name).eval t'.targets (t'.search t'.searchBound []) ∧
      ((Inquiry.imported u.path s.request name).eval t.targets (t.search t.searchBound [])).Within
        (t.Listed F) := by
  have hasks : (Inquiry.imported u.path s.request name).Asks t.targets
      (fun r p => t.targets r p = t'.targets r p) (fun k => F k.path) (t.Listed F) :=
    Inquiry.asks_imported (h.targets s hs) fun target ht => h.closed s hs target ht
  exact ⟨Inquiry.eval_congr hasks (fun _ _ hr => hr) fun _ hk => h.frame.search_root_eq hk,
    Inquiry.eval_within hasks fun _ hk => (h.frame.search_root_eq hk).2⟩

theorem resolveImported_eq {s : ImportStatement} (hs : s ∈ u.imports) (name : Text) :
    t.resolveImported u.path s.request name = t'.resolveImported u'.path s.request name := by
  rw [h.path_eq]
  exact congrArg Lookup.value (h.imported_eq hs name).1

theorem memberOf_eq {owner : Text} (ho : t.Listed G owner) (member : Text) :
    t.memberOf owner member = t'.memberOf owner member := by
  have hs := h.symbols owner ho
  unfold memberOf
  cases hl : t.symbol? owner with
  | none =>
    rw [hl, Option.map_none, eq_comm, Option.map_eq_none_iff] at hs
    rw [hs]
    rfl
  | some s =>
    rw [hl, Option.map_some, eq_comm, Option.map_eq_some_iff] at hs
    obtain ⟨s', hr, hsite⟩ := hs
    have hname : s'.name = s.name := congrArg SymbolSite.name hsite
    have hfile : s'.file = s.file := congrArg SymbolSite.file hsite
    rw [hr, Option.bind_some, Option.bind_some, hname, hfile]
    exact h.symbolNamed_eq (h.files owner ho s hl) _

theorem linkImport_eq {s : ImportStatement} (hs : s ∈ u.imports) :
    t.linkImport u.path s = t'.linkImport u'.path s := by
  unfold linkImport
  rw [h.path_eq, ← h.targets s hs]
  cases ht : t.targets s.request u.path with
  | nil => rfl
  | cons p ps =>
    refine List.map_congr_left fun target hm => ?_
    have hF : F target := h.closed s hs target (ht ▸ hm)
    have hn : (fun name => (t.resolveExport target name).getD external) =
        fun name => (t'.resolveExport target name).getD external := by
      funext name
      rw [h.frame.resolveExport_eq hF]
    rw [hn]

theorem wildcardSymbol_eq (name : Text) : t.wildcardSymbol u name = t'.wildcardSymbol u' name := by
  unfold wildcardSymbol
  rw [h.imports_eq, h.path_eq]
  refine findSome?_congr fun s hs => ?_
  have hs : s ∈ u.imports := (List.mem_filter.mp hs).1
  rw [← h.targets s hs]
  refine findSome?_congr fun target ht => ?_
  rw [h.frame.resolveExport_eq (h.closed s hs target ht)]

theorem container_eq {q : Text} (hq : t.Listed G q) :
    (t.symbol? q).bind (·.container) = (t'.symbol? q).bind (·.container) := by
  have hs := congrArg (Option.bind · fun v => v.container) (h.symbols q hq)
  rw [Option.bind_map, Option.bind_map] at hs
  exact hs

theorem resolveBareCall_eq (name : Text) : t.resolveBareCall u name = t'.resolveBareCall u' name := by
  unfold resolveBareCall
  rw [← LinkUnit.binding?_congr h.view_eq]
  cases hb : u.binding? name with
  | some b =>
    dsimp only
    rw [h.resolveImported_eq (LinkUnit.binding?_eq_some hb).1]
  | none =>
    dsimp only
    rw [h.wildcardSymbol_eq, h.packageSymbol_eq, h.path_eq, ← h.symbolNamed_eq h.mem]
    congr 1
    cases hs : t.symbolNamed u.path name with
    | none => rfl
    | some q =>
      simp only [Option.filter, h.container_eq (listed_of_symbolNamed h.mem hs)]

theorem resolveInModule_eq {s : ImportStatement} (hs : s ∈ u.imports) (member : Text) :
    t.resolveInModule u s member = t'.resolveInModule u' s member := by
  unfold resolveInModule
  rw [h.path_eq, ← h.targets s hs]
  cases ht : t.targets s.request u.path with
  | nil => rfl
  | cons p ps =>
    refine findSome?_congr fun target hm => ?_
    exact h.frame.resolveExport_eq (h.closed s hs target (ht ▸ hm)) member

theorem resolveInSymbol_eq (qualifier member : Text) :
    t.resolveInSymbol u qualifier member = t'.resolveInSymbol u' qualifier member := by
  unfold resolveInSymbol
  rw [← LinkUnit.binding?_congr h.view_eq]
  cases hb : u.binding? qualifier with
  | some b =>
    have hs := (LinkUnit.binding?_eq_some hb).1
    dsimp only
    rw [← h.resolveImported_eq hs]
    cases hr : t.resolveImported u.path b.statement.request b.name with
    | none => rfl
    | some owner =>
      dsimp only
      split
      · rfl
      · next hne =>
        have hl := ((h.imported_eq hs b.name).2 owner hr).resolve_left (by simpa using hne)
        exact h.memberOf_eq (hl.mono h.searched) member
  | none =>
    dsimp only
    rw [h.path_eq, ← h.symbolNamed_eq h.mem, ← h.packageSymbol_eq]
    cases ho : (t.symbolNamed u.path qualifier).or (t.packageSymbol u qualifier) with
    | none => rfl
    | some owner =>
      refine h.memberOf_eq ?_ member
      cases Option.or_eq_some_iff.mp ho with
      | inl hs => exact listed_of_symbolNamed h.mem hs
      | inr hs => exact h.listed_of_packageSymbol hs.2

theorem resolveCall_eq {caller caller' : SymbolRecord} (hc : caller.container = caller'.container)
    (callee : Text) : t.resolveCall u caller callee = t'.resolveCall u' caller' callee := by
  unfold resolveCall
  cases find? [unit '.'] callee with
  | none => exact h.resolveBareCall_eq callee
  | some i =>
    dsimp only
    split
    · rw [hc, h.path_eq]
      cases caller'.container with
      | none => rfl
      | some c =>
        dsimp only
        rw [h.symbolNamed_eq h.mem]
    · rw [h.imports_eq]
      cases hs : u.imports.find? fun s => s.namespaceAlias == some (callee.take i) with
      | none => exact h.resolveInSymbol_eq _ _
      | some s => exact h.resolveInModule_eq (List.mem_of_find?_eq_some hs) _

theorem edge?_eq {c : CallRecord} (hc : c ∈ u.calls) : t.edge? u c = t'.edge? u' c := by
  unfold edge?
  cases hcaller : c.caller with
  | none => rfl
  | some q =>
    have hs := h.symbols q (h.listed_of_mem (h.callers c hc q hcaller))
    cases hl : t.symbol? q with
    | none =>
      rw [hl, Option.map_none, eq_comm, Option.map_eq_none_iff] at hs
      simp [hl, hs]
    | some s =>
      rw [hl, Option.map_some, eq_comm, Option.map_eq_some_iff] at hs
      obtain ⟨s', hr, hsite⟩ := hs
      have hcont : s.container = s'.container := (congrArg SymbolSite.container hsite).symm
      simp [hl, hr, h.resolveCall_eq hcont]

/-- The edges of a file follow from its frame. -/
theorem link_eq : t.link u = t'.link u' := by
  have hcalls : u'.calls = u.calls := (congrArg UnitView.calls h.view_eq).symm
  have himports : u.imports.flatMap (t.linkImport u.path) = u.imports.flatMap (t'.linkImport u'.path) :=
    List.flatMap_congr fun s hs => h.linkImport_eq hs
  have hedges : u.calls.filterMap (t.edge? u) = u.calls.filterMap (t'.edge? u') :=
    List.filterMap_congr fun c hc => h.edge?_eq hc
  rw [link, link, h.imports_eq, hcalls, himports, hedges]

end FileFrame
end LinkTables
end AnnotationIndex
