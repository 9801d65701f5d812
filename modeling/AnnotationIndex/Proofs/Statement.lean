import AnnotationIndex.Index.Restore
import AnnotationIndex.Proofs.ModuleTarget

/-!
The statements of a file are read back from the entries that linking made of them. The entries of one
statement have distinct targets, and a further statement of the same shape begins with the same target
again.
-/
namespace AnnotationIndex
open Text

namespace LinkTables
variable {t : LinkTables} {path : Text} {s : ImportStatement}

def entryTargets (t : LinkTables) (path : Text) (s : ImportStatement) : List Text :=
  match t.targets s.request path with
  | [] => [external]
  | targets => targets

def entryNames (t : LinkTables) (path : Text) (s : ImportStatement) (target : Text) : List LinkedName :=
  linkedNames s fun name =>
    if (t.targets s.request path).isEmpty then external else (t.resolveExport target name).getD external

theorem linkImport_eq_map (t : LinkTables) (path : Text) (s : ImportStatement) :
    t.linkImport path s = (t.entryTargets path s).map fun target => entryOf s target (t.entryNames path s target) := by
  unfold linkImport entryTargets entryNames
  cases t.targets s.request path with
  | nil => rfl
  | cons p ps => rfl

theorem nodup_entryTargets (t : LinkTables) (path : Text) (s : ImportStatement) :
    (t.entryTargets path s).Nodup := by
  have h := t.nodup_targets s.request path
  unfold entryTargets
  revert h
  cases t.targets s.request path with
  | nil => exact fun _ => by simp
  | cons p ps => exact id

theorem mem_entryTargets {target : Text} (h : target ∈ t.targets s.request path) :
    target ∈ t.entryTargets path s := by
  unfold entryTargets
  revert h
  cases t.targets s.request path with
  | nil => exact fun h => absurd h List.not_mem_nil
  | cons p ps => exact id

/-- A statement has at least one entry. -/
theorem exists_linkImport (t : LinkTables) (path : Text) (s : ImportStatement) :
    ∃ p ps, t.entryTargets path s = p :: ps ∧ t.linkImport path s = entryOf s p (t.entryNames path s p) ::
      ps.map fun target => entryOf s target (t.entryNames path s target) := by
  cases h : t.entryTargets path s with
  | nil =>
    unfold entryTargets at h
    split at h
    · exact absurd h (List.cons_ne_nil _ _)
    · next hne => exact absurd h hne
  | cons p ps => exact ⟨p, ps, rfl, by rw [linkImport_eq_map, h, List.map_cons]⟩

theorem filter_entryTargets (t : LinkTables) (path : Text) (s : ImportStatement) :
    (t.entryTargets path s).filter (· != external) = (t.targets s.request path).filter (· != external) := by
  unfold entryTargets
  cases t.targets s.request path with
  | nil => rfl
  | cons p ps => rfl

end LinkTables

namespace StatementTargets
open LinkTables

/-- An entry tells its statement. -/
theorem ofGroup_entryOf (s : ImportStatement) (target : Text) (symbol : Text → Text) (rest : List ImportEntry) :
    ofGroup (entryOf s target (linkedNames s symbol)) rest =
      ⟨s, targetsOf (entryOf s target (linkedNames s symbol) :: rest)⟩ := by
  have hn : (linkedNames s symbol).map (fun n => (⟨n.name, n.binding⟩ : ImportedName)) = s.names := by
    simp [linkedNames, Function.comp_def]
  have hw : (if s.wildcard then some true else none).getD false = s.wildcard := by
    cases s.wildcard <;> rfl
  simp only [ofGroup, entryOf, hn, hw]

theorem sameStatement_entryOf (s : ImportStatement) (target target' : Text) (names names' : List LinkedName) :
    sameStatement (entryOf s target names) (entryOf s target' names') = true := by
  simp [sameStatement, entryOf]

/-- Statements whose entries look the same ask for the same. -/
theorem request_of_sameStatement {s s' : ImportStatement} {target target' : Text} {names names' : List LinkedName}
    (h : sameStatement (entryOf s target names) (entryOf s' target' names') = true) : s.request = s'.request := by
  simp only [sameStatement, entryOf, Bool.and_eq_true, beq_iff_eq] at h
  obtain ⟨⟨⟨_, hspecifier⟩, _⟩, hwildcard⟩ := h
  have hw : s.wildcard = s'.wildcard := by
    cases hs : s.wildcard <;> cases hs' : s'.wildcard <;> simp_all
  simp [ImportStatement.request, hspecifier, hw]

/-- Entries go on with a statement while they share its shape and none repeats a target. -/
theorem grow_append {first : ImportEntry} {taken es rest : List ImportEntry}
    (hs : ∀ e ∈ es, sameStatement first e = true) (hn : ((first :: taken ++ es).map (·.target)).Nodup) :
    grow first taken (es ++ rest) = grow first (taken ++ es) rest := by
  induction es generalizing taken with
  | nil => simp
  | cons e es ih =>
    have hnew : ((first :: taken).map (·.target)).elem e.target = false := by
      rw [List.map_append, List.nodup_append] at hn
      have hne : e.target ∉ (first :: taken).map (·.target) := fun hm => hn.2.2 _ hm _ List.mem_cons_self rfl
      simpa using hne
    rw [List.cons_append, grow, hs e List.mem_cons_self, hnew, Bool.not_false, Bool.and_self, if_pos rfl]
    rw [ih (fun d hd => hs d (List.mem_cons_of_mem e hd)) (by simpa using hn), List.append_assoc,
      List.singleton_append]

/-- After the entries of a statement, those of the next begin a new one. -/
theorem grow_done {t : LinkTables} {path : Text} {s : ImportStatement} {first : ImportEntry}
    {taken : List ImportEntry} (hfirst : first :: taken = t.linkImport path s) (ss : List ImportStatement) :
    grow first taken (ss.flatMap (t.linkImport path)) =
      ofGroup first taken :: ofEntries (ss.flatMap (t.linkImport path)) := by
  cases ss with
  | nil => rfl
  | cons s' ss =>
    obtain ⟨p, ps, hp, hentries⟩ := t.exists_linkImport path s
    obtain ⟨p', ps', hp', hentries'⟩ := t.exists_linkImport path s'
    obtain ⟨rfl, rfl⟩ := List.cons.inj (hfirst.trans hentries)
    rw [List.flatMap_cons, hentries', List.cons_append, ofEntries, grow]
    rw [if_neg]
    intro hgoes
    rw [Bool.and_eq_true, Bool.not_eq_true'] at hgoes
    obtain ⟨hsame, hnew⟩ := hgoes
    have htargets : t.entryTargets path s = t.entryTargets path s' := by
      rw [entryTargets, entryTargets, request_of_sameStatement hsame]
    have hhead : p = p' := by
      rw [hp, hp'] at htargets
      exact (List.cons.inj htargets).1
    simp [entryOf, hhead] at hnew

/-- The statements of a file are read back as they were, each with the files that it names. -/
theorem ofEntries_linkImport (t : LinkTables) (path : Text) (ss : List ImportStatement) :
    ofEntries (ss.flatMap (t.linkImport path)) =
      ss.map fun s => ⟨s, (t.targets s.request path).filter (· != external)⟩ := by
  induction ss with
  | nil => rfl
  | cons s ss ih =>
    obtain ⟨p, ps, hp, hentries⟩ := t.exists_linkImport path s
    have hnodup := t.nodup_entryTargets path s
    have hmap : (t.linkImport path s).map (·.target) = t.entryTargets path s := by
      simp [linkImport_eq_map, entryOf, Function.comp_def]
    have htargets : targetsOf (t.linkImport path s) = (t.targets s.request path).filter (· != external) := by
      rw [targetsOf, hmap, filter_entryTargets]
    rw [List.flatMap_cons, List.map_cons, hentries, List.cons_append, ofEntries, grow_append]
    · rw [List.nil_append, grow_done hentries.symm, ih, entryNames, ofGroup_entryOf, ← entryNames, ← hentries,
        htargets]
    · intro e he
      obtain ⟨target, _, rfl⟩ := List.mem_map.mp he
      exact sameStatement_entryOf s _ _ _ _
    · rw [List.cons_append, List.nil_append, ← hentries, hmap]
      exact hnodup

end StatementTargets
end AnnotationIndex
