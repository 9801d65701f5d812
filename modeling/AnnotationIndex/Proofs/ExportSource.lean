import AnnotationIndex.Index.IndexedFile
import AnnotationIndex.Proofs.IndexedFile
import AnnotationIndex.Proofs.Table
import Mathlib.Data.List.Nodup

/-!
Rows for names of other modules. In every language a file that exports names of a module imports that module too, so
that whoever follows imports finds the modules from which names are passed on.
-/
namespace AnnotationIndex
open Text

/-- Every row for names of another module stands with an import of that module. -/
def Sourced (imports : List ImportStatement) (rows : List ExportRow) : Prop :=
  ∀ row ∈ rows, ∀ specifier ∈ row.source, ∃ s ∈ imports, s.specifier = specifier

namespace Sourced
variable {imports imports' : List ImportStatement} {rows rows' : List ExportRow}

theorem of_none (h : ∀ row ∈ rows, row.source = none) : Sourced imports rows := by
  intro row hrow specifier hs
  rw [h row hrow] at hs
  exact absurd hs (Option.not_mem_none specifier)

theorem nil : Sourced imports [] := of_none fun _ h => absurd h List.not_mem_nil

theorem mono (h : Sourced imports rows) (hsub : ∀ s ∈ imports, ∃ s' ∈ imports', s'.specifier = s.specifier) :
    Sourced imports' rows := by
  intro row hrow specifier hs
  obtain ⟨s, hm, rfl⟩ := h row hrow specifier hs
  exact hsub s hm

theorem append (h : Sourced imports rows) (h' : Sourced imports' rows') :
    Sourced (imports ++ imports') (rows ++ rows') := by
  intro row hrow specifier hs
  cases List.mem_append.mp hrow with
  | inl hrow =>
    obtain ⟨s, hm, he⟩ := h row hrow specifier hs
    exact ⟨s, List.mem_append_left _ hm, he⟩
  | inr hrow =>
    obtain ⟨s, hm, he⟩ := h' row hrow specifier hs
    exact ⟨s, List.mem_append_right _ hm, he⟩

theorem flatMap {α : Type} {as : List α} {f : α → List ImportStatement} {g : α → List ExportRow}
    (h : ∀ a ∈ as, Sourced (f a) (g a)) : Sourced (as.flatMap f) (as.flatMap g) := by
  induction as with
  | nil => exact nil
  | cons a as ih =>
    rw [List.flatMap_cons, List.flatMap_cons]
    exact (h a List.mem_cons_self).append (ih fun b hb => h b (List.mem_cons_of_mem a hb))

end Sourced

namespace Python

/-- Below the names of the module stand names that it imports. -/
theorem exists_importedRows (declarations : List Declaration) (imports : List ImportStatement)
    (listed : Option (List Text)) (isPackage : Bool) :
    ∃ others, exportTable declarations imports listed isPackage =
        ((declarations.filter fun d => d.exported && d.kind ≠ .method).map fun d => ExportRow.own d.name d.name) ++
          others ∧
      ∀ row ∈ others, ∃ s ∈ imports, row.source = some s.specifier := by
  have hown : (declarations.filter fun d => d.kind ≠ .method && d.exported) =
      declarations.filter fun d => d.exported && d.kind ≠ .method := List.filter_congr fun d _ => Bool.and_comm _ _
  refine ⟨_, by rw [exportTable, List.map_map, hown]; rfl, fun row hrow => ?_⟩
  obtain ⟨s, hs, hrow⟩ := List.mem_flatMap.mp hrow
  refine ⟨s, hs, ?_⟩
  split at hrow
  · rw [List.mem_singleton.mp hrow]
    rfl
  · obtain ⟨n, _, hrow⟩ := List.mem_filterMap.mp hrow
    rw [Option.ite_none_left_eq_some] at hrow
    rw [← Option.some.inj hrow.2]
    rfl

/-- A package hands on what it imports, from where it imports it. -/
theorem sourced_exportTable (declarations : List Declaration) (imports : List ImportStatement)
    (listed : Option (List Text)) (isPackage : Bool) :
    Sourced imports (exportTable declarations imports listed isPackage) := by
  obtain ⟨others, heq, hothers⟩ := exists_importedRows declarations imports listed isPackage
  intro row hrow specifier hspecifier
  rw [heq, List.mem_append] at hrow
  cases hrow with
  | inl hrow =>
    obtain ⟨d, _, rfl⟩ := List.mem_map.mp hrow
    exact absurd hspecifier (Option.not_mem_none specifier)
  | inr hrow =>
    obtain ⟨s, hs, hsource⟩ := hothers row hrow
    exact ⟨s, hs, Option.some.inj (hsource.symm.trans hspecifier)⟩

end Python

namespace Rust

theorem exists_addName (line : Nat) (specifier : Text) (n : ImportedName) (imports : List ImportStatement) :
    ∃ s ∈ addName line specifier n imports, s.specifier = specifier := by
  unfold addName
  dsimp only
  split
  · next h =>
    obtain ⟨s, hs, hsame⟩ := List.any_eq_true.mp h
    refine ⟨_, List.mem_map_of_mem hs, ?_⟩
    have hspecifier : s.specifier = specifier := by
      simp only [Bool.and_eq_true, beq_iff_eq] at hsame
      exact hsame.1.1
    rw [if_pos hsame]
    exact hspecifier
  · exact ⟨_, List.mem_append_right _ (List.mem_singleton.mpr rfl), rfl⟩

/-- A name that joins a statement leaves the statements as many and what they name. -/
theorem addName_keeps {line : Nat} {specifier : Text} {n : ImportedName} {imports : List ImportStatement}
    {s : ImportStatement} (hs : s ∈ imports) :
    ∃ s' ∈ addName line specifier n imports, s'.specifier = s.specifier := by
  unfold addName
  dsimp only
  split
  · refine ⟨_, List.mem_map_of_mem hs, ?_⟩
    split <;> rfl
  · exact ⟨s, List.mem_append_left _ hs, rfl⟩

theorem sourced_addLeaf {line : Nat} {isPublic : Bool} {u : Uses} (h : Sourced u.imports u.exports) (leaf : UseLeaf) :
    Sourced (addLeaf line isPublic u leaf).imports (addLeaf line isPublic u leaf).exports := by
  have hrow : ∀ {imports : List ImportStatement} {row : ExportRow} {specifier : Text},
      row.source = some specifier → (∃ s ∈ imports, s.specifier = specifier) → Sourced imports [row] := by
    intro imports row specifier hsource hex r hr specifier' hs
    obtain rfl := List.mem_singleton.mp hr
    rwa [← Option.some.inj (hsource.symm.trans hs)]
  unfold addLeaf
  split
  · refine h.append ?_
    split
    · exact hrow rfl ⟨_, List.mem_singleton.mpr rfl, rfl⟩
    · exact .nil
  · dsimp only
    split
    · exact h.mono fun s hs => ⟨s, List.mem_append_left _ hs, rfl⟩
    · intro row hm specifier hs
      cases List.mem_append.mp hm with
      | inl hm => exact h.mono (fun s hs => addName_keeps hs) row hm specifier hs
      | inr hm =>
        split at hm
        · exact hrow rfl (exists_addName _ _ _ _) row hm specifier hs
        · exact absurd hm List.not_mem_nil

theorem sourced_usesFrom (line : Nat) (ls : List CodeLine) : ∀ u ∈ usesFrom line ls, Sourced u.imports u.exports := by
  have hfold : ∀ (leaves : List UseLeaf) (line : Nat) (isPublic : Bool) (u : Uses), Sourced u.imports u.exports →
      Sourced (leaves.foldl (addLeaf line isPublic) u).imports (leaves.foldl (addLeaf line isPublic) u).exports := by
    intro leaves line isPublic
    induction leaves with
    | nil => exact fun u h => h
    | cons leaf leaves ih => exact fun u h => ih _ (sourced_addLeaf h leaf)
  fun_induction usesFrom line ls with
  | case1 => exact fun u hu => absurd hu List.not_mem_nil
  | case2 line l rest t hnone ih => exact ih
  | case3 line l rest t m hsome statement n hstatement tree ih =>
    intro u hu
    cases List.mem_cons.mp hu with
    | inl hu => exact hu ▸ hfold _ _ _ _ .nil
    | inr hu => exact ih u hu

theorem sourced_outline (text : Text) : Sourced (outline text).imports (outline text).exports := by
  have hall : Sourced ([] ++ (outline text).imports) (outline text).exports := by
    refine Sourced.append ?_ ?_
    · refine .of_none fun row hrow => ?_
      obtain ⟨d, _, rfl⟩ := List.mem_map.mp hrow
      rfl
    · exact .flatMap fun u hu => sourced_usesFrom _ _ u hu
  exact hall.mono fun s hs => ⟨s, hs, rfl⟩

end Rust

namespace Script

theorem sourced_append {a b : Part} (ha : Sourced a.imports a.exports) (hb : Sourced b.imports b.exports) :
    Sourced (a.append b).imports (a.append b).exports := Sourced.append ha hb

theorem sourced_concat {ps : List Part} (h : ∀ p ∈ ps, Sourced p.imports p.exports) :
    Sourced (Part.concat ps).imports (Part.concat ps).exports := by
  induction ps with
  | nil => exact .nil
  | cons p ps ih =>
    exact sourced_append (h p List.mem_cons_self) (ih fun q hq => h q (List.mem_cons_of_mem p hq))

/-- An export from a module imports it. -/
theorem sourced_exportsFrom (line : Nat) (specifier : Text) (star : Option Text) (names : List Specifier) :
    Sourced (exportsFrom line specifier star names).imports (exportsFrom line specifier star names).exports := by
  have hsource : ∀ row ∈ (exportsFrom line specifier star names).exports, row.source = some specifier := by
    intro row hrow
    cases List.mem_append.mp hrow with
    | inl hrow =>
      split at hrow
      · exact List.mem_singleton.mp hrow ▸ rfl
      · split at hrow
        · exact List.mem_singleton.mp hrow ▸ rfl
        · exact absurd hrow List.not_mem_nil
    | inr hrow =>
      obtain ⟨e, _, rfl⟩ := List.mem_map.mp hrow
      rfl
  intro row hrow specifier' hs
  exact ⟨_, List.mem_singleton.mpr rfl, Option.some.inj ((hsource row hrow).symm.trans hs)⟩

theorem source_rowsOf {title : Text} {exported isDefault : Bool} {row : ExportRow}
    (h : row ∈ rowsOf title exported isDefault) : row.source = none := by
  unfold rowsOf at h
  split at h
  · exact List.mem_singleton.mp h ▸ rfl
  · split at h
    · exact List.mem_singleton.mp h ▸ rfl
    · exact absurd h List.not_mem_nil

theorem sourced_declared (s : Source) (exported : Exported) (n : Node) (kind : DeclarationKind) (title : Text)
    (modifiers : List Text) (body : Option Nat) : Sourced (declared s exported n kind title modifiers body).imports
      (declared s exported n kind title modifiers body).exports := .of_none fun _ hrow => source_rowsOf hrow

theorem sourced_declarationPart (s : Source) (exported : Exported) (n : Node) (kind : DeclarationKind)
    (title : Option Text) (modifiers : List Text) (body : Option Nat) :
    Sourced (declarationPart s exported n kind title modifiers body).imports
      (declarationPart s exported n kind title modifiers body).exports := by
  unfold declarationPart
  split
  · split
    · exact .nil
    · exact sourced_declared s exported n _ _ _ _
  · exact sourced_declared s exported n _ _ _ _
  · split
    · exact sourced_declared s exported n _ _ _ _
    · exact .nil
  · exact sourced_declared s exported n _ _ _ _

theorem sourced_variablePart (s : Source) (statement : Node) (keyword : Text) (exported alone : Bool) (n : Node) :
    Sourced (variablePart s statement keyword exported alone n).imports
      (variablePart s statement keyword exported alone n).exports := by
  unfold variablePart
  split
  · dsimp only
    split
    · exact .nil
    · split
      · exact .nil
      · exact .of_none fun row (hrow : row ∈ rowsOf _ exported false) => source_rowsOf hrow
  · exact .nil

theorem sourced_statementPart {s : Source} {exported : Exported} {n : Node} {p : Part}
    (h : statementPart s exported n = .ok p) : Sourced p.imports p.exports := by
  unfold statementPart at h
  dsimp only at h
  split at h
  · split at h
    · simp [throw, throwThe, MonadExceptOf.throw] at h
    · obtain rfl := Except.ok.inj h
      exact .nil
  · obtain rfl := Except.ok.inj h
    exact sourced_exportsFrom _ _ _ _
  · obtain rfl := Except.ok.inj h
    refine .of_none fun row hrow => ?_
    obtain ⟨e, _, rfl⟩ := List.mem_map.mp hrow
    rfl
  · obtain rfl := Except.ok.inj h
    refine .of_none fun row hrow => ?_
    obtain ⟨t, _, rfl⟩ := List.mem_map.mp hrow
    rfl
  · obtain rfl := Except.ok.inj h
    exact sourced_declarationPart s exported n _ _ _ _
  · obtain rfl := Except.ok.inj h
    refine sourced_concat fun p hp => ?_
    obtain ⟨n, _, rfl⟩ := List.mem_map.mp hp
    exact sourced_variablePart _ _ _ _ _ _
  · obtain rfl := Except.ok.inj h
    exact .nil

theorem sourced_outline {path text : Text} {o : Outline} (h : outline path text = .ok o) :
    Sourced o.imports o.exports := by
  rw [outline, bind_eq_ok] at h
  obtain ⟨parts, hparts, h⟩ := h
  obtain rfl := Except.ok.inj h
  have hsourced : Sourced (Part.concat parts).imports (Part.concat parts).exports := by
    refine sourced_concat fun p hp => ?_
    obtain ⟨n, _, hn⟩ := mem_of_mapM_ok hparts hp
    exact sourced_statementPart hn
  exact hsourced.mono fun s hs => ⟨s, List.mem_append_left _ hs, rfl⟩

end Script

section Extractors

theorem source_of_go {text : Text} {row : ExportRow} (h : row ∈ (Go.outline text).exports) : row.source = none := by
  obtain ⟨d, _, rfl⟩ := List.mem_map.mp h
  rfl

theorem source_of_java {text : Text} {row : ExportRow} (h : row ∈ (Java.outline text).exports) :
    row.source = none := by
  obtain ⟨d, _, hd⟩ := List.mem_filterMap.mp h
  unfold Java.exportRow? at hd
  split at hd
  · exact absurd hd (by simp)
  · split at hd
    · exact Option.some.inj hd ▸ rfl
    · split at hd
      · exact Option.some.inj hd ▸ rfl
      · exact absurd hd (by simp)

theorem sourced_extractor {e : Extractor} (he : e ∈ Extractor.builtIn) {path text : Text} {o : Outline}
    (h : e.outline path text = .ok o) : Sourced o.imports o.exports := by
  simp only [Extractor.builtIn, List.mem_cons, List.not_mem_nil, or_false] at he
  rcases he with rfl | rfl | rfl | rfl | rfl
  · exact Script.sourced_outline h
  · obtain rfl := Except.ok.inj h
    exact Python.sourced_exportTable _ _ _ _
  · obtain rfl := Except.ok.inj h
    exact .of_none fun row hrow => source_of_go hrow
  · obtain rfl := Except.ok.inj h
    exact Rust.sourced_outline text
  · obtain rfl := Except.ok.inj h
    exact .of_none fun row hrow => source_of_java hrow

/-- Files of a language with an extractor of its own name are read by that extractor. -/
theorem forFile?_of_language {e : Extractor} (he : e ∈ Extractor.builtIn) {path : Text}
    (h : Language.ofPath path = e.id) : Extractor.forFile? Extractor.builtIn path = some e := by
  have hids : ∀ id ∈ Extractor.builtIn.map (·.id), ∀ entry ∈ Language.byExtension, entry.2 = id →
      (Extractor.builtIn.reverse.find? fun e => (e.extensions.map lower).elem entry.1).map (·.id) = some id := by
    decide +kernel
  have hunknown : ∀ e ∈ Extractor.builtIn, e.id ≠ "unknown" := by decide
  unfold Language.ofPath at h
  cases hl : Language.byExtension.lookup (lower (Path.extension path)) with
  | none =>
    rw [hl] at h
    exact absurd h.symm (hunknown e he)
  | some language =>
    rw [hl] at h
    obtain ⟨e', hfound, hid⟩ := Option.map_eq_some_iff.mp
      (hids e.id (List.mem_map_of_mem he) (_, language) (Table.mem_of_get? hl) h)
    have hmem : e' ∈ Extractor.builtIn := List.mem_reverse.mp (List.mem_of_find?_eq_some hfound)
    have hdistinct : (Extractor.builtIn.map (·.id)).Nodup := by decide
    rw [Extractor.forFile?, Extractor.forExtension?, hfound, List.inj_on_of_nodup_map hdistinct hmem he hid]

/-- Whether extractors give an import with every row for names of another module, and no such rows for files of Java. -/
def Extractor.Importing (extractors : List Extractor) : Prop :=
  ∀ path e, forFile? extractors path = some e → ∀ text o, e.outline path text = .ok o →
    Sourced o.imports o.exports ∧ (Language.ofPath path = "java" → ∀ row ∈ o.exports, row.source = none)

theorem Extractor.importing_builtIn : Importing builtIn := by
  intro path e he text o ho
  have hmem : e ∈ builtIn := by
    rw [forFile?, forExtension?] at he
    exact List.mem_reverse.mp (List.mem_of_find?_eq_some he)
  refine ⟨sourced_extractor hmem ho, fun hjava row hrow => ?_⟩
  have hread : e = .java :=
    Option.some.inj (he.symm.trans (forFile?_of_language (e := .java) (by simp [builtIn]) hjava))
  rw [hread] at ho
  obtain rfl := Except.ok.inj ho
  exact source_of_java hrow

end Extractors

namespace IndexedFile
variable {rules : IndexRules} {path text : Text} {f : IndexedFile}

theorem sourced_outlineOf (hr : Extractor.Importing rules.extractors) (path text : Text) :
    Sourced (outlineOf rules path text).1.imports (outlineOf rules path text).1.exports ∧
      (Language.ofPath path = "java" → ∀ row ∈ (outlineOf rules path text).1.exports, row.source = none) := by
  unfold outlineOf
  split
  · exact ⟨.nil, fun _ _ hrow => absurd hrow List.not_mem_nil⟩
  · next e he =>
    split
    · next ho => exact hr path e he text _ ho
    · exact ⟨.nil, fun _ _ hrow => absurd hrow List.not_mem_nil⟩

/-- What an indexed file takes over from its outline. -/
theorem ofText_outline (h : ofText rules path text = .ok f) : f.imports = (outlineOf rules path text).1.imports ∧
    f.file.exports = (outlineOf rules path text).1.exports ∧ f.file.language = Language.ofPath path := by
  have made := madeOf_ofText h
  exact ⟨made.imports, made.exports, made.language⟩

/-- Indexed files import the modules whose names they export. Files of Java export none. -/
theorem sourced_ofText (hr : Extractor.Importing rules.extractors) (h : ofText rules path text = .ok f) :
    Sourced f.imports f.file.exports ∧
      (f.file.language = "java" → ∀ row ∈ f.file.exports, row.source = none) := by
  obtain ⟨himports, hexports, hlanguage⟩ := ofText_outline h
  rw [himports, hexports, hlanguage]
  exact sourced_outlineOf hr path text

end IndexedFile
end AnnotationIndex
