import AnnotationIndex.Proofs.Frame
import AnnotationIndex.Proofs.Statement
import AnnotationIndex.Proofs.Table

/-!
Where edges lead. Every symbol that linking finds is listed by a file of the project or lies outside it, whether it is
found for an imported name or for a call.
-/
namespace AnnotationIndex
open Text

namespace LinkTables
variable {t : LinkTables} {u : LinkUnit} {q : Text}

def Attributable (t : LinkTables) (q : Text) : Prop := q = external ∨ t.Listed (fun _ => True) q

theorem attributable_external : t.Attributable external := .inl rfl

/-- Nothing is outside the frame that holds all files. -/
theorem frame_self (t : LinkTables) : Frame t t fun _ => True :=
  ⟨fun _ _ => rfl, fun _ _ _ _ _ => rfl, fun _ _ _ _ _ _ _ => trivial⟩

theorem attributable_resolveExport {path name : Text} (h : t.resolveExport path name = some q) : t.Attributable q :=
  (t.frame_self.search_root_eq (k := ⟨path, name⟩) trivial).2 q h

theorem attributable_resolveImported {path name : Text} {r : ModuleRequest}
    (h : t.resolveImported path r name = some q) : t.Attributable q := by
  have hasks : (Inquiry.imported path r name).Asks t.targets (fun _ _ => True) (fun _ => True)
      (t.Listed fun _ => True) := Inquiry.asks_imported trivial fun _ _ => trivial
  exact Inquiry.eval_within hasks (fun _ _ => (t.frame_self.search_root_eq trivial).2) q h

theorem listed_of_symbolNamed {path name : Text} (h : t.symbolNamed path name = some q) : t.Listed (fun _ => True) q :=
  FileFrame.listed_of_symbolNamed (G := fun _ => True) trivial h

theorem listed_of_packageSymbol {name : Text} (h : t.packageSymbol u name = some q) : t.Listed (fun _ => True) q := by
  rw [packageSymbol_eq] at h
  split at h
  · exact absurd h (by simp)
  · obtain ⟨p, _, h⟩ := List.exists_of_findSome?_eq_some h
    exact listed_of_symbolNamed h

section Calls

theorem attributable_memberOf {owner member : Text} (h : t.memberOf owner member = some q) : t.Attributable q := by
  obtain ⟨s, _, h⟩ := Option.bind_eq_some_iff.mp h
  exact .inr (listed_of_symbolNamed h)

theorem attributable_wildcardSymbol {name : Text} (h : t.wildcardSymbol u name = some q) : t.Attributable q := by
  obtain ⟨s, _, h⟩ := List.exists_of_findSome?_eq_some h
  obtain ⟨target, _, h⟩ := List.exists_of_findSome?_eq_some h
  exact attributable_resolveExport (Option.filter_eq_some_iff.mp h).1

theorem attributable_resolveBareCall {name : Text} (h : t.resolveBareCall u name = some q) : t.Attributable q := by
  unfold resolveBareCall at h
  cases hb : u.binding? name with
  | some b =>
    rw [hb] at h
    cases hr : t.resolveImported u.path b.statement.request b.name with
    | none => simp only [hr] at h; exact .inl (Option.some.inj h).symm
    | some q' => simp only [hr] at h; exact Option.some.inj h ▸ attributable_resolveImported hr
  | none =>
    simp only [hb, Option.or_eq_some_iff] at h
    obtain h | ⟨_, h | ⟨_, h⟩⟩ := h
    · exact .inr (listed_of_symbolNamed (Option.filter_eq_some_iff.mp h).1)
    · exact attributable_wildcardSymbol h
    · exact .inr (listed_of_packageSymbol h)

theorem attributable_resolveInModule {s : ImportStatement} {member : Text}
    (h : t.resolveInModule u s member = some q) : t.Attributable q := by
  unfold resolveInModule at h
  split at h
  · exact .inl (Option.some.inj h).symm
  · obtain ⟨target, _, h⟩ := List.exists_of_findSome?_eq_some h
    exact attributable_resolveExport h

theorem attributable_resolveInSymbol {qualifier member : Text} (h : t.resolveInSymbol u qualifier member = some q) :
    t.Attributable q := by
  unfold resolveInSymbol at h
  split at h
  · split at h
    · exact absurd h (by simp)
    · split at h
      · exact .inl (Option.some.inj h).symm
      · exact attributable_memberOf h
  · split at h
    · exact attributable_memberOf h
    · exact absurd h (by simp)

/-- A call reaches a symbol of the project, or leaves it. -/
theorem attributable_resolveCall {caller : SymbolRecord} {callee : Text} (h : t.resolveCall u caller callee = some q) :
    t.Attributable q := by
  unfold resolveCall at h
  split at h
  · exact attributable_resolveBareCall h
  · dsimp only at h
    split at h
    · split at h
      · split at h
        · exact absurd h (by simp)
        · exact .inr (listed_of_symbolNamed h)
      · exact absurd h (by simp)
    · split at h
      · exact attributable_resolveInModule h
      · exact attributable_resolveInSymbol h

theorem attributable_edge? {c : CallRecord} {e : Text × Text} (h : t.edge? u c = some e) : t.Attributable e.2 := by
  simp only [edge?, Option.bind_eq_bind, Option.bind_eq_some_iff] at h
  obtain ⟨name, _, caller, _, callee, hcallee, h⟩ := h
  exact Option.some.inj h ▸ attributable_resolveCall hcallee

/-- The callees of a caller are in order, and each is attributable. -/
theorem callees_link {name : Text} {callees : List Text} (h : (t.link u).callees.lookup name = some callees) :
    (callees.Pairwise fun p q => lt p q = true) ∧ ∀ q ∈ callees, t.Attributable q := by
  obtain ⟨caller, _, he⟩ := List.mem_map.mp (Table.mem_of_get? h)
  obtain ⟨-, rfl⟩ := Prod.mk.inj he
  refine ⟨pairwise_sortedSet _, fun q hq => ?_⟩
  obtain ⟨e, he, rfl⟩ := List.mem_map.mp (mem_sortedSet.mp hq)
  obtain ⟨c, _, hc⟩ := List.mem_filterMap.mp (List.mem_filter.mp he).1
  exact attributable_edge? hc

end Calls

section Imports

/-- An entry of an import leads to another file or leaves the project, and its names to symbols or out of it. -/
theorem entry_link {e : ImportEntry} (h : e ∈ (t.link u).imports) :
    (e.target = external ∨ e.target ∈ t.units.map (·.path) ∧ e.target ≠ u.path) ∧
      ∀ n ∈ e.names, t.Attributable n.symbol := by
  obtain ⟨s, _, he⟩ := List.mem_flatMap.mp h
  rw [linkImport_eq_map] at he
  obtain ⟨target, htarget, rfl⟩ := List.mem_map.mp he
  constructor
  · unfold entryTargets at htarget
    split at htarget
    · exact .inl (List.mem_singleton.mp htarget)
    · exact .inr (mem_targets htarget)
  · intro n hn
    obtain ⟨name, _, rfl⟩ := List.mem_map.mp hn
    dsimp only
    split
    · exact attributable_external
    · cases hr : t.resolveExport target name.name with
      | none => exact attributable_external
      | some q => exact attributable_resolveExport hr

end Imports
end LinkTables
end AnnotationIndex
