import AnnotationIndex.Proofs.NumberText
import AnnotationIndex.Proofs.Session
import AnnotationIndex.Proofs.Statement

/-!
The key of an import entry: line, specifier, alias and wildcard mark in one text, with a separator between them. The
alias and the mark are cut off at the end and the line at the start, so only an alias that holds a separator could
be read two ways. Where no alias does, the entries with one key are those of one statement, and the statements of a
linked file are read back whole.
-/
namespace AnnotationIndex
open Text

namespace StatementTargets

def lineText (line : Int) : Text := (if line < 0 then [unit '-'] else []) ++ Text.ofNat line.natAbs

def wildcardMark (wildcard : Bool) : Text := if wildcard then [unit '*'] else []

def key (e : ImportEntry) : Text :=
  lineText e.line ++ separator :: (e.specifier ++ separator :: (e.namespaceAlias.getD [] ++ separator ::
    wildcardMark (e.wildcard.getD false)))

theorem plain_lineText (line : Int) : Plain (lineText line) := by
  intro h
  rw [lineText, List.mem_append] at h
  cases h with
  | inl h =>
    split at h
    · exact absurd (List.mem_singleton.mp h) (by decide)
    · exact absurd h List.not_mem_nil
  | inr h => exact absurd (isDigit_of_mem_ofNat h) (by decide)

theorem lineText_inj {line line' : Int} (h : lineText line = lineText line') : line = line' := by
  have hdigit : ∀ n : Nat, ∀ t, Text.ofNat n ≠ unit '-' :: t := by
    intro n t hn
    exact absurd (isDigit_of_mem_ofNat (hn ▸ List.mem_cons_self)) (by decide)
  have hofNat : ∀ m n : Nat, Text.ofNat m = Text.ofNat n → m = n := fun m n hmn => by
    rw [← Number.digitsValue_ofNat m, hmn, Number.digitsValue_ofNat]
  unfold lineText at h
  split at h <;> split at h
  · have := hofNat _ _ (List.cons.inj h).2
    omega
  · exact absurd h.symm (hdigit _ _)
  · exact absurd h (hdigit _ _)
  · have := hofNat _ _ h
    omega

/-- A text is cut in one way only after the last separator. -/
theorem plain_append_cancel_right {a b r s : Text} (ha : Plain a) (hb : Plain b)
    (h : r ++ separator :: a = s ++ separator :: b) : r = s ∧ a = b := by
  have hreversed : a.reverse ++ separator :: r.reverse = b.reverse ++ separator :: s.reverse := by
    simpa using congrArg List.reverse h
  obtain ⟨hab, hrs⟩ :=
    plain_append_cancel (fun hm => ha (List.mem_reverse.mp hm)) (fun hm => hb (List.mem_reverse.mp hm)) hreversed
  exact ⟨List.reverse_injective hrs, List.reverse_injective hab⟩

theorem plain_alias {e : ImportEntry} (h : ∀ a ∈ e.namespaceAlias, Plain a) : Plain (e.namespaceAlias.getD []) := by
  cases ha : e.namespaceAlias with
  | none => exact List.not_mem_nil
  | some a => exact h a ha

/-- Entries have one key if and only if they look like entries of one statement. -/
theorem key_eq_iff {e e' : ImportEntry} (h : ∀ a ∈ e.namespaceAlias, Plain a) (h' : ∀ a ∈ e'.namespaceAlias, Plain a) :
    key e = key e' ↔ sameStatement e e' = true := by
  have hmark : ∀ w, Plain (wildcardMark w) := by decide
  have hsame : sameStatement e e' = true ↔ ((e.line = e'.line ∧ e.specifier = e'.specifier) ∧
      e.namespaceAlias.getD [] = e'.namespaceAlias.getD []) ∧ e.wildcard.getD false = e'.wildcard.getD false := by
    simp only [sameStatement, Bool.and_eq_true, beq_iff_eq]
  rw [hsame]
  constructor
  · intro hkey
    obtain ⟨hline, hrest⟩ := plain_append_cancel (plain_lineText _) (plain_lineText _) hkey
    rw [← List.cons_append, ← List.append_assoc, ← List.cons_append, ← List.append_assoc] at hrest
    obtain ⟨hfront, hwildcard⟩ := plain_append_cancel_right (hmark _) (hmark _) hrest
    obtain ⟨hspecifier, halias⟩ := plain_append_cancel_right (plain_alias h) (plain_alias h') hfront
    have hinj : ∀ w w', wildcardMark w = wildcardMark w' → w = w' := by decide
    exact ⟨⟨⟨lineText_inj hline, hspecifier⟩, halias⟩, hinj _ _ hwildcard⟩
  · rintro ⟨⟨⟨hline, hspecifier⟩, halias⟩, hwildcard⟩
    rw [key, key, hline, hspecifier, halias, hwildcard]

variable {t : LinkTables} {u : LinkUnit}

/-- The entries of a file have the aliases of its statements. -/
theorem plain_of_mem_link (h : ∀ s ∈ u.imports, ∀ a ∈ s.namespaceAlias, Plain a) {e : ImportEntry}
    (he : e ∈ (t.link u).imports) : ∀ a ∈ e.namespaceAlias, Plain a := by
  obtain ⟨s, hs, he⟩ := List.mem_flatMap.mp he
  rw [LinkTables.linkImport_eq_map] at he
  obtain ⟨target, _, rfl⟩ := List.mem_map.mp he
  exact h s hs

/-- Linking keeps the import statements of a file: they are read back from its entries as they were, in order, each
with the files that it names. To go by the keys of the entries is the same as to compare their parts, if no alias
holds a separator. -/
theorem statements_link (t : LinkTables) (u : LinkUnit) (hexternal : ∀ v ∈ t.units, v.path ≠ external)
    (halias : ∀ s ∈ u.imports, ∀ a ∈ s.namespaceAlias, Plain a) :
    ofEntries (t.link u).imports = u.imports.map (fun s => ⟨s, t.targets s.request u.path⟩) ∧
      ∀ e ∈ (t.link u).imports, ∀ e' ∈ (t.link u).imports, key e = key e' ↔ sameStatement e e' = true := by
  constructor
  · rw [LinkTables.link, ofEntries_linkImport]
    refine List.map_congr_left fun s _ => ?_
    have hinside : ∀ p ∈ t.targets s.request u.path, (p != external) = true := by
      intro p hp
      obtain ⟨v, hv, rfl⟩ := List.mem_map.mp (LinkTables.mem_targets hp).1
      simpa using hexternal v hv
    rw [List.filter_eq_self.mpr hinside]
  · exact fun e he e' he' => key_eq_iff (plain_of_mem_link halias he) (plain_of_mem_link halias he')

def packageImporter : LinkUnit :=
  ⟨"main.go", "go", [], [], [⟨"m/a", 1, [], some "a", false⟩, ⟨"m/a", 1, [], some "a", false⟩,
    ⟨"fmt", 2, [], some "fmt", false⟩], []⟩

def packageTables : LinkTables :=
  ⟨[packageImporter, ⟨"a/x.go", "go", [], [], [], []⟩, ⟨"a/y.go", "go", [], [], [], []⟩]⟩

theorem targets_packageTables :
    packageTables.targets ⟨"m/a", false⟩ "main.go" = [ofString "a/x.go", ofString "a/y.go"] ∧
      packageTables.targets ⟨"fmt", false⟩ "main.go" = [] := by
  have hdirectories : packageTables.files.directories = [ofString ".", ofString "a"] := by
    rw [FileSet.directories, sortedSet, List.mergeSort_of_pairwise (by decide)]
    decide
  have hfiles : packageTables.files.inDirectory "a" = [ofString "a/x.go", ofString "a/y.go"] := by
    rw [FileSet.inDirectory, sortedSet, List.mergeSort_of_pairwise (by decide)]
    decide
  have hgo (specifier : Text) : packageTables.targets ⟨specifier, false⟩ "main.go" =
      (ModuleTarget.go specifier packageTables.files).filter (· != ofString "main.go") := by
    have hlanguage : ((packageTables.unit? "main.go").map (·.language)).getD [] = "go" := by decide
    rw [LinkTables.targets, hlanguage]
    rfl
  rw [hgo, hgo, ModuleTarget.go, ModuleTarget.go, hdirectories]
  constructor
  · simp +decide [ModuleTarget.goFiles, hfiles, ModuleTarget.go.longer]
  · simp +decide

theorem statements_link_package :
    (∀ v ∈ packageTables.units, v.path ≠ external) ∧
      (∀ s ∈ packageImporter.imports, ∀ a ∈ s.namespaceAlias, Plain a) ∧
      ofEntries (packageTables.link packageImporter).imports =
        [⟨⟨"m/a", 1, [], some "a", false⟩, [ofString "a/x.go", ofString "a/y.go"]⟩,
          ⟨⟨"m/a", 1, [], some "a", false⟩, [ofString "a/x.go", ofString "a/y.go"]⟩,
          ⟨⟨"fmt", 2, [], some "fmt", false⟩, []⟩] := by
  have hexternal : ∀ v ∈ packageTables.units, v.path ≠ external := by decide
  have halias : ∀ s ∈ packageImporter.imports, ∀ a ∈ s.namespaceAlias, Plain a := by decide
  refine ⟨hexternal, halias, (statements_link packageTables packageImporter hexternal halias).1.trans ?_⟩
  simp only [packageImporter, List.map_cons, List.map_nil, ImportStatement.request, targets_packageTables.1,
    targets_packageTables.2]

end StatementTargets
end AnnotationIndex
