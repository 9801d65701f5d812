import AnnotationIndex.Proofs.AnnotationMap
import AnnotationIndex.Proofs.LineOrder
import Mathlib.Data.List.Perm.Basic

/-!
The owners of annotations. The file takes annotations of a text's blocks and so does each declaration, but no
annotation is taken twice: a declaration takes them from its own block only, and leaves there what is the file's. So
no two annotations in the index of a file start on the same line.
-/
namespace AnnotationIndex
open Text

section Sublists
variable {α β γ : Type}

theorem subperm_flatMap {as bs : List α} (h : as.Subperm bs) (f : α → List γ) :
    (as.flatMap f).Subperm (bs.flatMap f) := by
  obtain ⟨cs, hperm, hsub⟩ := h
  exact ((hperm.flatMap_right f).symm.subperm).trans (hsub.flatMap f).subperm

theorem subperm_flatMap_of_forall₂ {f : α → List γ} {g : β → List γ} {as : List α} {bs : List β}
    (h : List.Forall₂ (fun a b => (g b).Subperm (f a)) as bs) : (bs.flatMap g).Subperm (as.flatMap f) := by
  induction h with
  | nil => exact List.Subperm.refl _
  | cons hab _ ih =>
    rw [List.flatMap_cons, List.flatMap_cons]
    exact ((List.subperm_append_right _).mpr hab).trans ((List.subperm_append_left _).mpr ih)

end Sublists

namespace Association
variable {file : Text} {blocks : List AnnotatedBlock} {ds : List Declaration} {kinds : List LineKind}

def owner? (placed : List Placed) (b : Placed × Nat) : Option Nat :=
  b.1.2.above?.filter fun i => (winner? placed i).map (·.1) == some b.2

def leave (placed : List Placed) (b : Placed × Nat) : List AnnotationRecord :=
  match owner? placed b with
  | some _ => b.1.1.annotations.filter fun a => !AnnotationRecord.isFileOnly a.nameSpace
  | none => []

/-- The file and the declaration take different annotations of a block. -/
theorem subperm_share (placed : List Placed) (b : Placed × Nat) :
    ((share file ds placed b).1 ++ leave placed b).Subperm b.1.1.annotations := by
  have hnone (as : List AnnotationRecord) (has : as.Sublist b.1.1.annotations) (howner : owner? placed b = none) :
      (as ++ leave placed b).Subperm b.1.1.annotations := by
    rw [leave, howner, List.append_nil]
    exact has.subperm
  unfold share
  split
  · next htarget => exact hnone _ (List.Sublist.refl _) (by simp [owner?, htarget, BlockTarget.above?])
  · next htarget => exact hnone _ List.filter_sublist (by simp [owner?, htarget, BlockTarget.above?])
  · next i _ htarget =>
    split
    · next n w hw =>
      split
      · next hn =>
        have howner : owner? placed b = some i := by simp [owner?, htarget, BlockTarget.above?, hw, hn]
        rw [leave, howner]
        exact (List.filter_append_perm _ _).subperm
      · next hn => exact hnone _ (List.nil_sublist _) (by simp [owner?, htarget, BlockTarget.above?, hw, hn])
    · next hw => exact hnone _ (List.nil_sublist _) (by simp [owner?, htarget, BlockTarget.above?, hw])

/-- A declaration takes what the blocks that are its own leave. -/
theorem sublist_leave (placed : List Placed) (i : Nat) :
    (match winner? placed i with
      | some (_, w) => w.annotations.filter fun r : AnnotationRecord => !AnnotationRecord.isFileOnly r.nameSpace
      | none => []).Sublist ((placed.zipIdx.filter fun b => owner? placed b == some i).flatMap (leave placed)) := by
  cases hw : winner? placed i with
  | none => exact List.nil_sublist _
  | some e =>
    obtain ⟨b, hb, hn, hblock, habove⟩ := mem_zipIdx_of_winner? hw
    have howner : owner? placed b = some i := by simp [owner?, habove, hw, hn]
    have hleave : leave placed b = e.2.annotations.filter fun r => !AnnotationRecord.isFileOnly r.nameSpace := by
      rw [leave, howner, hblock]
    have hmem : b ∈ placed.zipIdx.filter fun b => owner? placed b == some i :=
      List.mem_filter.mpr ⟨hb, beq_iff_eq.mpr howner⟩
    have hsub := (List.singleton_sublist.mpr hmem).flatMap (leave placed)
    rwa [List.flatMap_singleton, hleave] at hsub

/-- The file and the declarations take no annotation of the blocks twice. -/
theorem subperm_records (file : Text) (blocks : List AnnotatedBlock) (ds : List Declaration) (kinds : List LineKind) :
    ((ofBlocks file blocks ds kinds).fileRecords ++ (ofBlocks file blocks ds kinds).symbolRecords.flatten).Subperm
      (blocks.flatMap (·.annotations)) := by
  let placed := blocks.map fun b => (b, BlockTarget.ofBlock ds kinds b.lineSpan)
  have hfile :
      (ofBlocks file blocks ds kinds).fileRecords = placed.zipIdx.flatMap fun b => (share file ds placed b).1 := by
    rw [ofBlocks, List.flatMap_map]
  have hsymbols :
      (ofBlocks file blocks ds kinds).symbolRecords.flatten.Subperm (placed.zipIdx.flatMap (leave placed)) := by
    have hindices : (ds.zipIdx.map fun d => some d.2).Nodup := by
      have hrange : (ds.zipIdx.map (·.2)).Nodup := by
        rw [List.zipIdx_map_snd]
        exact List.nodup_range'
      have hsome := hrange.map (Option.some_injective Nat)
      rwa [List.map_map] at hsome
    have hdealt := subperm_flatMap (subperm_flatMap_filter (owner? placed) hindices placed.zipIdx)
      (leave placed)
    refine List.Subperm.trans (List.Sublist.subperm ?_) hdealt
    rw [List.flatMap_map, List.flatMap_assoc, ofBlocks, ← List.flatMap_def]
    exact List.Sublist.flatMap_right _ fun d _ => sublist_leave placed d.2
  have hblocks : placed.zipIdx.flatMap (fun b => b.1.1.annotations) = blocks.flatMap (·.annotations) := by
    have hfst := List.flatMap_map (f := Prod.fst) (g := fun p : Placed => p.1.annotations) (l := placed.zipIdx)
    rw [List.zipIdx_map_fst, List.flatMap_map] at hfst
    exact hfst.symm
  rw [hfile, ← hblocks]
  refine List.Subperm.trans ((List.subperm_append_left _).mpr hsymbols) ?_
  refine List.Subperm.trans (List.flatMap_append_perm _ _ _).subperm ?_
  exact subperm_flatMap_of_forall₂ (List.forall₂_same.mpr fun b _ => subperm_share placed b)

end Association

theorem SymbolRecord.annotations_ofDeclaration {path q : Text} {d : Declaration} {records : List AnnotationRecord}
    {s : SymbolRecord} (h : ofDeclaration path d q records = .ok s) :
    AnnotationMap.ofRecords records = .ok s.annotations ∧ s.constraint = Constraint.own? records := by
  obtain ⟨m, hm, rfl⟩ := eq_of_ofDeclaration h
  exact ⟨hm, rfl⟩

namespace IndexedFile
variable {rules : IndexRules} {path text : Text} {f : IndexedFile}

def stored (f : IndexedFile) : List AnnotationRecord :=
  AnnotationMap.annotations f.file.annotations ++ f.symbols.flatMap fun s => AnnotationMap.annotations s.annotations

/-- What the index of a file takes from the annotations of its text. -/
structure Annotated (rules : IndexRules) (path text : Text) (f : IndexedFile) : Prop where
  own : AnnotationMap.ofRecords (association rules path text).fileRecords = .ok f.file.annotations
  constraint : f.file.constraint = Constraint.ofFile (association rules path text).fileRecords
  symbols : List.Forall₂ (fun d s => AnnotationMap.ofRecords d.2.2 = .ok s.annotations ∧
    s.constraint = Constraint.own? d.2.2) (declared rules path text) f.symbols

theorem annotated_ofText (h : ofText rules path text = .ok f) : f.Annotated rules path text := by
  have made := madeOf_ofText h
  exact ⟨made.annotations, made.constraint,
    (forall₂_of_mapM_ok made.symbols).imp fun _ _ => SymbolRecord.annotations_ofDeclaration⟩

/-- A symbol's annotations and its constraint come from annotations that the file keeps. -/
theorem exists_records (h : ofText rules path text = .ok f) {s : SymbolRecord} (hs : s ∈ f.symbols) :
    ∃ records, (∀ a ∈ records, a ∈ kept rules path text) ∧ AnnotationMap.ofRecords records = .ok s.annotations ∧
      s.constraint = Constraint.own? records := by
  obtain ⟨d, hd, hmap, hconstraint⟩ := mem_of_forall₂ (annotated_ofText h).symbols hs
  have hmem : d.2.2 ∈ (association rules path text).symbolRecords :=
    records_declared rules path text ▸ List.mem_map_of_mem hd
  exact ⟨d.2.2, fun a ha => List.mem_append_right _ (List.mem_flatten.mpr ⟨_, hmem, ha⟩), hmap, hconstraint⟩

/-- The index of a file holds no annotation more often than the file keeps it. -/
theorem subperm_stored (h : ofText rules path text = .ok f) : f.stored.Subperm (kept rules path text) := by
  obtain ⟨hown, _, hsymbols⟩ := annotated_ofText h
  have hrecords :
      ((declared rules path text).flatMap fun d => d.2.2) = (association rules path text).symbolRecords.flatten := by
    rw [List.flatMap_def, records_declared]
  have hall : (f.symbols.flatMap fun s => AnnotationMap.annotations s.annotations).Subperm
      ((declared rules path text).flatMap fun d => d.2.2) :=
    subperm_flatMap_of_forall₂ (hsymbols.imp fun _ _ h => AnnotationMap.subperm_ofRecords h.1)
  rw [stored, kept, ← hrecords]
  exact ((List.subperm_append_right _).mpr (AnnotationMap.subperm_ofRecords hown)).trans
    ((List.subperm_append_left _).mpr hall)

theorem subperm_kept (rules : IndexRules) (path text : Text) :
    (kept rules path text).Subperm ((blocksOf rules path text).1.flatMap (·.annotations)) :=
  Association.subperm_records path _ _ _

theorem starts_blocksOf (rules : IndexRules) (path text : Text) :
    (AnnotationRecord.starts ((blocksOf rules path text).1.flatMap (·.annotations))).Sublist
      ((List.range' 1 (lineCount text)).map (↑)) := by
  unfold blocksOf
  split
  · next has => exact Annotations.starts_ofText has
  · exact List.nil_sublist _

/-- No two annotations in the index of a file start on the same line. -/
theorem nodup_starts_stored (h : ofText rules path text = .ok f) : (AnnotationRecord.starts f.stored).Nodup := by
  have hblocks : (AnnotationRecord.starts ((blocksOf rules path text).1.flatMap (·.annotations))).Nodup :=
    (starts_blocksOf rules path text).nodup (List.Nodup.map Int.ofNat_injective List.nodup_range')
  obtain ⟨as, hperm, hsub⟩ := (subperm_stored h).trans (subperm_kept rules path text)
  exact (hperm.map _).nodup_iff.mp ((hsub.map _).nodup hblocks)

end IndexedFile
end AnnotationIndex
