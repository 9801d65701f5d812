import AnnotationIndex.Configuration
import AnnotationIndex.Proofs.Annotation
import AnnotationIndex.Proofs.Table

/-!
Files that cannot be indexed. Whatever a file says, its index is found, but for one thing: a map takes no annotation
whose namespace every record has as a name already. No known namespace is such a name, so that only a configured one
can be.
-/
namespace AnnotationIndex
open Text

namespace Table

theorem mem_keys_of_put {α : Type} {t : Table α} {key k : Text} {value : α} (h : k ∈ (put t key value).keys) :
    k = key ∨ k ∈ t.keys := by
  unfold put insert at h
  split at h
  · exact .inr h
  · split at h
    · exact .inr (keys_replace ▸ h)
    · exact mem_place.mp h

end Table

/-- The names that every record has are no known namespaces and do not look like custom ones. -/
theorem unknown_inherited : ∀ n ∈ Table.inherited,
    NamespaceRule.known? n = none ∧ startsWith n "x-" = false ∧ AnnotationRecord.isSource n = false := by
  decide

/-- Annotations of such a namespace would accumulate. -/
theorem multiValued_inherited {n : Text} (h : Table.isInherited n = true) :
    AnnotationRecord.isMultiValued n = true := by
  rw [AnnotationRecord.isMultiValued, (unknown_inherited n (List.elem_iff.mp h)).1]
  rfl

namespace AnnotationMap
variable {m m' : AnnotationMap} {a : AnnotationRecord}

def Plain (m : AnnotationMap) : Prop := ∀ n ∈ Table.keys m, Table.isInherited n = false

theorem add_of_plain (h : m.Plain) :
    (Table.isInherited a.nameSpace = false → ∃ m', add m a = .ok m' ∧ m'.Plain) ∧
      (Table.isInherited a.nameSpace = true → add m a = .error ⟨a.nameSpace⟩) := by
  have hput : ∀ as : List AnnotationRecord, Table.isInherited a.nameSpace = false →
      Plain (Table.put m a.nameSpace as) := by
    intro as ha n hn
    cases Table.mem_keys_of_put hn with
    | inl hn => exact hn ▸ ha
    | inr hn => exact h n hn
  constructor
  · intro ha
    unfold add
    split
    · exact ⟨_, rfl, hput _ ha⟩
    · refine ⟨Table.put m a.nameSpace [a], ?_, hput _ ha⟩
      simp [ha]
  · intro ha
    have hnone : Table.get? m a.nameSpace = none := by
      refine Table.get?_eq_none.mpr fun hkey => ?_
      rw [h _ hkey] at ha
      exact Bool.false_ne_true ha
    simp [add, hnone, ha, multiValued_inherited ha]

theorem foldlM_add_ok {as : List AnnotationRecord} (h : m.Plain) :
    (∃ m', as.foldlM add m = .ok m') ↔ ∀ a ∈ as, Table.isInherited a.nameSpace = false := by
  induction as generalizing m with
  | nil => simp [pure, Except.pure]
  | cons a rest ih =>
    rw [List.foldlM_cons, List.forall_mem_cons]
    cases ha : Table.isInherited a.nameSpace with
    | true =>
      rw [(add_of_plain h).2 ha]
      simp [bind, Except.bind]
    | false =>
      obtain ⟨m', hm', hplain⟩ := (add_of_plain h).1 ha
      rw [hm']
      exact (ih hplain).trans ⟨fun hrest => ⟨rfl, hrest⟩, And.right⟩

/-- The annotations of a scope have a map exactly if no namespace of theirs is a name that every record has. -/
theorem ofRecords_ok (as : List AnnotationRecord) :
    (∃ m, ofRecords as = .ok m) ↔ ∀ a ∈ as, Table.isInherited a.nameSpace = false := by
  have hplain : Plain [] := fun n hn => absurd hn List.not_mem_nil
  rw [ofRecords, foldlM_add_ok hplain, AnnotationRecord.inLineOrder]
  simp only [List.mem_mergeSort]

end AnnotationMap

/-- A chain of steps succeeds if each of them does. -/
theorem ok_bind {ε α β : Type} {x : Except ε α} {f : α → Except ε β} :
    (∃ b, x >>= f = .ok b) ↔ ∃ a, x = .ok a ∧ ∃ b, f a = .ok b := by
  simp only [bind_eq_ok]
  exact ⟨fun ⟨b, a, ha, hb⟩ => ⟨a, ha, b, hb⟩, fun ⟨a, ha, b, hb⟩ => ⟨b, a, ha, hb⟩⟩

theorem mapM_ok {ε α β : Type} {f : α → Except ε β} {as : List α} :
    (∃ bs, as.mapM f = .ok bs) ↔ ∀ a ∈ as, ∃ b, f a = .ok b := by
  induction as with
  | nil => simp [pure, Except.pure]
  | cons a rest ih =>
    have hpure : ∀ (b : β) (bs : List β), ∃ cs, (pure (b :: bs) : Except ε (List β)) = .ok cs :=
      fun b bs => ⟨b :: bs, rfl⟩
    rw [List.mapM_cons, List.forall_mem_cons, ← ih, ok_bind]
    simp only [ok_bind, hpure, and_true, exists_and_right]

theorem SymbolRecord.ofDeclaration_isOk {path q : Text} {d : Declaration} {records : List AnnotationRecord} :
    (∃ s, ofDeclaration path d q records = .ok s) ↔ ∀ a ∈ records, Table.isInherited a.nameSpace = false := by
  rw [← AnnotationMap.ofRecords_ok, ofDeclaration, ok_bind]
  simp [pure, Except.pure]

namespace BlockTarget

theorem ofBlock_undeclared (kinds : List LineKind) (span : LineSpan) : ofBlock [] kinds span = .file := by
  rw [ofBlock]
  split <;> rfl

end BlockTarget

/-- Without declarations every annotation is the file's. -/
theorem Association.fileRecords_of_undeclared (file : Text) (blocks : List AnnotatedBlock) (kinds : List LineKind) :
    (ofBlocks file blocks [] kinds).fileRecords = blocks.flatMap (·.annotations) := by
  let placed := blocks.map fun b => (b, BlockTarget.ofBlock [] kinds b.lineSpan)
  have hshare : ∀ e ∈ placed.zipIdx, (share file [] placed e).1 = e.1.1.annotations := by
    intro e he
    obtain ⟨b, _, hb⟩ := List.mem_map.mp (List.fst_mem_of_mem_zipIdx he)
    rw [share, ← hb, BlockTarget.ofBlock_undeclared]
  calc (placed.zipIdx.map (share file [] placed)).flatMap (·.1)
      = placed.zipIdx.flatMap fun e => e.1.1.annotations := by
        rw [List.flatMap_map]
        exact List.flatMap_congr hshare
    _ = (placed.zipIdx.map Prod.fst).flatMap fun p => p.1.annotations := by rw [List.flatMap_map]
    _ = blocks.flatMap (·.annotations) := by rw [List.zipIdx_map_fst, List.flatMap_map]

namespace IndexedFile
variable {rules : IndexRules} {path text : Text}

def declared (rules : IndexRules) (path text : Text) : List (Declaration × Text × List AnnotationRecord) :=
  let ds := (outlineOf rules path text).1.declarations
  ds.zip ((qualify path ds).zip (association rules path text).symbolRecords)

theorem records_declared (rules : IndexRules) (path text : Text) :
    (declared rules path text).map (·.2.2) = (association rules path text).symbolRecords := by
  have hnames : (qualify path (outlineOf rules path text).1.declarations).length =
      (outlineOf rules path text).1.declarations.length := length_qualifyFrom path [] _
  have hrecords : (association rules path text).symbolRecords.length =
      (outlineOf rules path text).1.declarations.length := length_symbolRecords path _ _ _
  have hzip : ((qualify path (outlineOf rules path text).1.declarations).zip
      (association rules path text).symbolRecords).length = (outlineOf rules path text).1.declarations.length := by
    rw [List.length_zip, hnames, hrecords, Nat.min_self]
  have hcomp : (fun e : Declaration × Text × List AnnotationRecord => e.2.2) = Prod.snd ∘ Prod.snd := rfl
  rw [declared, hcomp, ← List.map_map, List.map_snd_zip (Nat.le_of_eq hzip),
    List.map_snd_zip (Nat.le_of_eq (hrecords.trans hnames.symm))]

/-- The index of a file is found exactly if no annotation that it keeps has a namespace that is a name of every
record. -/
theorem ofText_ok (rules : IndexRules) (path text : Text) : (∃ f, ofText rules path text = .ok f) ↔
    ∀ a ∈ kept rules path text, Table.isInherited a.nameSpace = false := by
  let symbolOf := fun e : Declaration × Text × List AnnotationRecord => SymbolRecord.ofDeclaration path e.1 e.2.1 e.2.2
  have hsymbols : (∃ symbols, (declared rules path text).mapM symbolOf = .ok symbols) ↔
      ∀ records ∈ (association rules path text).symbolRecords, ∀ a ∈ records,
        Table.isInherited a.nameSpace = false := by
    rw [mapM_ok, ← records_declared rules path text, List.forall_mem_map]
    exact forall₂_congr fun e _ => SymbolRecord.ofDeclaration_isOk
  have hfile := AnnotationMap.ofRecords_ok (association rules path text).fileRecords
  obtain ⟨made, hmade⟩ : ∃ made : List SymbolRecord → AnnotationMap → IndexedFile, ofText rules path text = (do
      let symbols ← (declared rules path text).mapM symbolOf
      let annotations ← AnnotationMap.ofRecords (association rules path text).fileRecords
      return made symbols annotations) := ⟨_, rfl⟩
  rw [kept, List.forall_mem_append, List.forall_mem_flatten, ← hsymbols, ← hfile, hmade, ok_bind]
  simp [ok_bind, pure, Except.pure, and_comm]

/-- Such a namespace has been configured. -/
theorem mem_custom_of_kept {a : AnnotationRecord} (ha : a ∈ kept rules path text)
    (h : Table.isInherited a.nameSpace = true) : a.nameSpace ∈ rules.annotations.custom := by
  obtain ⟨ab, hab, ha⟩ := block_of_kept ha
  obtain ⟨b, _, _, hstated⟩ := stated_blocksOf hab
  have hrule := AnnotatedBlock.find?_of_stated (hstated a ha)
  obtain ⟨hknown, hopens, _⟩ := unknown_inherited a.nameSpace (List.elem_iff.mp h)
  rw [NamespaceRule.find?, hknown, Option.none_or, NamespaceRule.isCustom, hopens, Bool.false_or] at hrule
  split at hrule
  · next hc => exact List.elem_iff.mp hc
  · exact absurd hrule (by simp)

section Lone

def loneLine (n : Text) : Text := "//@acp:" ++ n

def loneBlock (n : Text) : AnnotationBlock := ⟨BlockLine.ofBody 1 (sigil ++ n), []⟩

def loneEntry (n : Text) : AnnotatedBlock.Entry := ⟨⟨n, none, [], [], [], []⟩, 1, 1⟩

theorem scan_loneLine : ∀ n ∈ Table.inherited,
    AnnotationBlock.scan .general (loneLine n) = [loneBlock n] ∧
      AnnotatedBlock.entries (loneBlock n) = ([loneEntry n], []) := by
  decide

/-- An annotation whose namespace is configured and has no other rule is accepted. -/
theorem annotation_loneEntry {rules : AnnotationRules} {n : Text} (hn : n ∈ Table.inherited) (hc : n ∈ rules.custom) :
    ∃ a, AnnotatedBlock.annotation rules (loneEntry n) = .ok a ∧ a.nameSpace = n := by
  have hrule : NamespaceRule.find? rules.custom n = some NamespaceRule.customRule := by
    rw [NamespaceRule.find?, (unknown_inherited n hn).1, Option.none_or, NamespaceRule.isCustom,
      List.elem_iff.mpr hc, Bool.or_true]
    rfl
  simp [AnnotatedBlock.annotation, loneEntry, hrule, NamespaceRule.customRule, ParameterShape.read,
    NamespaceRule.requiresDirective]

theorem ofBlock_loneBlock {rules : AnnotationRules} {n : Text} (hn : n ∈ Table.inherited) (hc : n ∈ rules.custom)
    (file : Text) : ∃ a reports, AnnotatedBlock.ofBlock rules file (loneBlock n) = .ok (⟨⟨1, 1⟩, [a]⟩, reports) ∧
      a.nameSpace = n := by
  obtain ⟨a, ha, hname⟩ := annotation_loneEntry hn hc
  refine ⟨a, [], ?_, hname⟩
  have hstep : AnnotatedBlock.Progress.step rules file ⟨[], [], [], []⟩ (loneEntry n) = .ok ⟨[], [a], [], []⟩ := by
    have hsource : AnnotationRecord.isSource (loneEntry n).directive.nameSpace = false := (unknown_inherited n hn).2.2
    rw [AnnotatedBlock.Progress.step, hsource, AnnotatedBlock.Progress.endGroup, ha]
    rfl
  have hfold : [loneEntry n].foldlM (AnnotatedBlock.Progress.step rules file) ⟨[], [], [], []⟩ =
      .ok ⟨[], [a], [], []⟩ := by
    rw [List.foldlM_cons, hstep]
    rfl
  rw [AnnotatedBlock.ofBlock, (scan_loneLine n hn).2]
  simp only [List.mapM_nil, bind, Except.bind, pure, Except.pure, hfold]
  rfl

/-- The annotation of a lone line belongs to the file. -/
theorem kept_loneLine {rules : AnnotationRules} {n : Text} (hn : n ∈ Table.inherited) (hc : n ∈ rules.custom) :
    ∃ a ∈ kept ⟨Extractor.builtIn, rules⟩ "a" (loneLine n), a.nameSpace = n := by
  obtain ⟨a, reports, ha, hname⟩ := ofBlock_loneBlock hn hc "a"
  have hnone : Extractor.forFile? Extractor.builtIn "a" = none := by decide
  have hsyntax : commentSyntax ⟨Extractor.builtIn, rules⟩ "a" = .general := by rw [commentSyntax, hnone]; rfl
  have hdecls : (outlineOf ⟨Extractor.builtIn, rules⟩ "a" (loneLine n)).1.declarations = [] := by
    rw [outlineOf, hnone]; rfl
  have hblocks : (blocksOf ⟨Extractor.builtIn, rules⟩ "a" (loneLine n)).1 = [⟨⟨1, 1⟩, [a]⟩] := by
    rw [blocksOf, hsyntax, Annotations.ofText, (scan_loneLine n hn).1, List.mapM_cons, ha]
    rfl
  refine ⟨a, List.mem_append_left _ ?_, hname⟩
  rw [association, hblocks, hdecls, Association.fileRecords_of_undeclared]
  exact List.mem_singleton_self a

end Lone

/-- A file is indexed unless it keeps an annotation whose namespace is a name of every record. With the extractors that
are built in, every file is indexed exactly if no such name is configured as a namespace. -/
theorem ofText_ok_iff_custom (annotations : AnnotationRules) :
    (∀ extractors path text, (∃ f, ofText ⟨extractors, annotations⟩ path text = .ok f) ↔
        ∀ a ∈ kept ⟨extractors, annotations⟩ path text, Table.isInherited a.nameSpace = false) ∧
      ((∀ n ∈ annotations.custom, Table.isInherited n = false) →
        ∀ extractors path text, ∃ f, ofText ⟨extractors, annotations⟩ path text = .ok f) ∧
      ((∀ path text, ∃ f, ofText ⟨Extractor.builtIn, annotations⟩ path text = .ok f) →
        ∀ n ∈ annotations.custom, Table.isInherited n = false) := by
  refine ⟨fun extractors path text => ofText_ok _ path text, fun hcustom extractors path text => ?_,
    fun hall n hn => ?_⟩
  · rw [ofText_ok]
    intro a ha
    rw [← Bool.not_eq_true]
    intro hinherited
    have := hcustom _ (mem_custom_of_kept ha hinherited)
    exact Bool.false_ne_true (this.symm.trans hinherited)
  · rw [← Bool.not_eq_true]
    intro hinherited
    obtain ⟨a, ha, rfl⟩ := kept_loneLine (List.elem_iff.mp hinherited) hn
    have := (ofText_ok _ _ _).mp (hall "a" (loneLine a.nameSpace)) a ha
    exact Bool.false_ne_true (this.symm.trans hinherited)

def reservedSettings : Json := .obj [(("custom_namespaces" : Text), .arr [.str ("constructor" : Text)])]

theorem ofText_reserved : ∃ annotations, Configuration.annotationRules (some reservedSettings) = .ok annotations ∧
    ∀ f, ofText ⟨Extractor.builtIn, annotations⟩ "a.ts" "// @acp:constructor x
" ≠ .ok f := by
  refine ⟨⟨.permissive, Provenance.defaultThreshold, ["constructor"]⟩, rfl, fun f hf => ?_⟩
  have hkept := (ofText_ok _ _ _).mp ⟨f, hf⟩
  revert hkept
  decide +kernel

end IndexedFile
end AnnotationIndex
