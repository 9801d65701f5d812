import AnnotationIndex.Proofs.KeyOrder
import AnnotationIndex.Proofs.ReservedNamespace
import Mathlib.Data.List.Flatten
import Mathlib.Data.List.Perm.Subperm

/-!
What a map of annotations holds: under a namespace every annotation of it in the order of lines, if annotations of the
namespace accumulate, and else the last one. No annotation is there more often than it was given.
-/
namespace AnnotationIndex
open Text

/-- Elements that are dealt out to distinct keys are each dealt out at most once. -/
theorem subperm_flatMap_filter {α κ : Type} [BEq κ] [LawfulBEq κ] (key : α → κ) {ks : List κ}
    (h : ks.Nodup) (as : List α) : (ks.flatMap fun k => as.filter fun a => key a == k).Subperm as := by
  induction ks generalizing as with
  | nil => exact List.nil_subperm
  | cons k rest ih =>
    obtain ⟨hk, hrest⟩ := List.nodup_cons.mp h
    have hothers : (rest.flatMap fun j => as.filter fun a => key a == j) =
        rest.flatMap fun j => (as.filter fun a => !(key a == k)).filter fun a => key a == j := by
      refine List.flatMap_congr fun j hj => ?_
      have hne : j ≠ k := fun heq => hk (heq ▸ hj)
      rw [List.filter_filter]
      refine List.filter_congr fun a _ => ?_
      cases ha : key a == j with
      | true => simp [eq_of_beq ha, hne]
      | false => rfl
    rw [List.flatMap_cons, hothers]
    exact ((List.subperm_append_left _).mpr (ih hrest _)).trans
      (List.filter_append_perm (fun a => key a == k) as).subperm

namespace AnnotationMap
variable {m m' : AnnotationMap} {as : List AnnotationRecord} {a : AnnotationRecord} {n : Text}

def own (as : List AnnotationRecord) (n : Text) : List AnnotationRecord := as.filter fun a => a.nameSpace == n

def lasting (as : List AnnotationRecord) (n : Text) : List AnnotationRecord :=
  if AnnotationRecord.isMultiValued n then own as n else (own as n).getLast?.toList

theorem lasting_sublist (as : List AnnotationRecord) (n : Text) : (lasting as n).Sublist (own as n) := by
  unfold lasting
  split
  · exact List.Sublist.refl _
  · cases hlast : (own as n).getLast? with
    | none => exact List.nil_sublist _
    | some a => exact List.singleton_sublist.mpr (List.mem_of_getLast? hlast)

theorem own_append (as : List AnnotationRecord) (a : AnnotationRecord) (n : Text) :
    own (as ++ [a]) n = own as n ++ if a.nameSpace = n then [a] else [] := by
  simp only [own, List.filter_append, List.filter_cons, List.filter_nil, beq_iff_eq]

structure Holds (m : AnnotationMap) (as : List AnnotationRecord) : Prop where
  nodup : (Table.keys m).Nodup
  plain : m.Plain
  entries : ∀ n, Table.get? m n = if own as n = [] then none else some (lasting as n)

theorem holds_nil : Holds [] [] := ⟨List.nodup_nil, fun _ hn => absurd hn List.not_mem_nil, fun _ => rfl⟩

/-- Adding an annotation changes what stands under its namespace and nothing else. -/
theorem get?_add (hm : m.Plain) (h : add m a = .ok m') (n : Text) : Table.get? m' n = if n = a.nameSpace then
    some (if AnnotationRecord.isMultiValued n then (Table.get? m n).getD [] ++ [a] else [a]) else Table.get? m n := by
  have hplain : Table.isInherited a.nameSpace = false := by
    rw [← Bool.not_eq_true]
    intro hinherited
    rw [(add_of_plain hm).2 hinherited] at h
    exact absurd h (by simp)
  have hkey : a.nameSpace ≠ Table.droppedKey := fun heq => absurd (heq ▸ hplain) (by decide)
  unfold add at h
  dsimp only at h
  split at h
  · next as has =>
    obtain rfl := Except.ok.inj h
    rw [Table.get?_put hkey]
    split
    · next heq => rw [heq, has, Option.getD_some]
    · rfl
  · next hnone =>
    rw [hplain, Bool.and_false, if_neg Bool.false_ne_true] at h
    obtain rfl := Except.ok.inj h
    rw [Table.get?_put hkey]
    split
    · next heq => rw [heq, hnone, Option.getD_none, List.nil_append, ite_self]
    · rfl

theorem Holds.add (hm : m.Holds as) (h : add m a = .ok m') : m'.Holds (as ++ [a]) := by
  obtain ⟨hfree, hbound⟩ := add_of_plain (a := a) hm.plain
  refine ⟨?_, ?_, fun n => ?_⟩
  · unfold AnnotationMap.add at h
    dsimp only at h
    split at h
    · exact Except.ok.inj h ▸ Table.nodup_put hm.nodup
    · split at h
      · exact absurd h (by simp)
      · exact Except.ok.inj h ▸ Table.nodup_put hm.nodup
  · cases hinherited : Table.isInherited a.nameSpace with
    | true => exact absurd (h.symm.trans (hbound hinherited)) (by simp)
    | false =>
      obtain ⟨m₁, hm₁, hplain⟩ := hfree hinherited
      obtain rfl := Except.ok.inj (hm₁.symm.trans h)
      exact hplain
  · rw [get?_add hm.plain h, hm.entries, lasting, lasting, own_append]
    by_cases hn : n = a.nameSpace
    · have hmore : own as n ++ [a] ≠ [] := by simp
      rw [if_pos hn, if_pos hn.symm, if_neg hmore]
      cases hmulti : AnnotationRecord.isMultiValued n with
      | true => by_cases hown : own as n = [] <;> simp [hown]
      | false => simp
    · rw [if_neg hn, if_neg (Ne.symm hn), List.append_nil]

theorem Holds.foldlM {more : List AnnotationRecord} (hm : m.Holds as) (h : more.foldlM AnnotationMap.add m = .ok m') :
    m'.Holds (as ++ more) := by
  induction more generalizing m as with
  | nil => exact Except.ok.inj h ▸ (List.append_nil as).symm ▸ hm
  | cons a rest ih =>
    rw [List.foldlM_cons, bind_eq_ok] at h
    obtain ⟨m₁, hadd, h⟩ := h
    have hrest := ih (hm.add hadd) h
    rwa [List.append_assoc, List.singleton_append] at hrest

/-- The map of annotations holds them in the order of their lines. -/
theorem holds_ofRecords (h : ofRecords as = .ok m) : m.Holds (AnnotationRecord.inLineOrder as) :=
  holds_nil.foldlM h

/-- A map has no annotation more often than what it is made of. -/
theorem subperm_ofRecords (h : ofRecords as = .ok m) : (annotations m).Subperm as := by
  have hm := holds_ofRecords h
  have hentry : ∀ e ∈ m, e.2 = lasting (AnnotationRecord.inLineOrder as) e.1 := by
    intro e he
    have hget := Table.get?_of_mem hm.nodup he
    rw [hm.entries] at hget
    split at hget
    · exact absurd hget (by simp)
    · exact (Option.some.inj hget).symm
  have hsublist : (annotations m).Sublist ((Table.keys m).flatMap (own (AnnotationRecord.inLineOrder as))) := by
    rw [annotations, Table.keys, List.flatMap_map]
    exact List.Sublist.flatMap_right m fun e he => hentry e he ▸ lasting_sublist _ e.1
  have hdealt := subperm_flatMap_filter AnnotationRecord.nameSpace hm.nodup (AnnotationRecord.inLineOrder as)
  exact hsublist.subperm.trans (hdealt.trans (List.mergeSort_perm as _).subperm)

end AnnotationMap
end AnnotationIndex
