import AnnotationIndex.Json.Print
import AnnotationIndex.Proofs.Order
import AnnotationIndex.Proofs.Table

/-!
The order of keys. A table holds its entries in an order of their keys, and the canonical text of a value shows them
sorted; neither order says anything about the entries.
-/
namespace AnnotationIndex
open Text

namespace Table
variable {α β : Type} {t : Table α} {key k : Text} {value : α}

theorem perm_place : (place key value t).Perm ((key, value) :: t) := by
  induction t with
  | nil => rfl
  | cons e rest ih =>
    unfold place
    split
    · rfl
    · exact (ih.cons e).trans (List.Perm.swap _ _ _)

theorem perm_insert (hk : key ∉ t.keys) : (t.insert key value).Perm ((key, value) :: t) := by
  rw [insert, if_neg (mt has_iff.mp hk)]
  exact perm_place

/-- Entries with distinct keys are all in the table that is made of them. -/
theorem perm_ofList {entries : List (Text × α)} (hn : (entries.map (·.1)).Nodup) : (ofList entries).Perm entries := by
  unfold ofList
  suffices h : ∀ t : Table α, ((entries ++ t).map (·.1)).Nodup →
      (entries.foldl (fun t e => t.insert e.1 e.2) t).Perm (entries ++ t) by
    simpa using h [] (by simpa using hn)
  clear hn
  induction entries with
  | nil => exact fun t _ => .refl t
  | cons e rest ih =>
    intro t hn
    obtain ⟨he, hrest⟩ := List.nodup_cons.mp hn
    have hkey : e.1 ∉ t.keys := fun hm => he (List.map_subset _ (List.subset_append_right rest t) hm)
    have hperm : (rest ++ t.insert e.1 e.2).Perm (e :: (rest ++ t)) :=
      ((perm_insert hkey).append_left rest).trans List.perm_middle
    exact (ih _ ((hperm.map (·.1)).nodup_iff.mpr hn)).trans hperm

theorem nodup_of_perm {s : Table α} (h : s.Perm t) (hn : t.keys.Nodup) : s.keys.Nodup :=
  (h.map Prod.fst).nodup_iff.mpr hn

theorem eq_of_key (hn : t.keys.Nodup) {a b : Text × α} (ha : a ∈ t) (hb : b ∈ t) (h : a.1 = b.1) : a = b := by
  have hvalue := get?_of_mem hn ha
  rw [h, get?_of_mem hn hb] at hvalue
  exact Prod.ext h (Option.some.inj hvalue).symm

/-- Where keys are distinct, what stands under a key does not depend on the order of the entries. -/
theorem get?_perm {s : Table α} (h : s.Perm t) (hn : t.keys.Nodup) (k : Text) : get? s k = get? t k := by
  cases hk : get? t k with
  | some v => exact get?_of_mem (nodup_of_perm h hn) (h.symm.subset (mem_of_get? hk))
  | none =>
    rw [get?_eq_none] at hk ⊢
    exact fun hm => hk ((h.map (·.1)).subset hm)

/-- Tables with distinct keys that hold the same under every key have the same entries. -/
theorem perm_of_get? {s : Table α} (hs : s.keys.Nodup) (ht : t.keys.Nodup) (h : ∀ k, get? s k = get? t k) :
    s.Perm t := by
  have hnodup : ∀ {t : Table α}, t.keys.Nodup → t.Nodup :=
    List.Pairwise.of_map Prod.fst fun _ _ hkey heq => hkey (congrArg Prod.fst heq)
  refine (List.perm_ext_iff_of_nodup (hnodup hs) (hnodup ht)).mpr fun e => ⟨fun he => ?_, fun he => ?_⟩
  · exact mem_of_get? ((h e.1).symm.trans (get?_of_mem hs he))
  · exact mem_of_get? ((h e.1).trans (get?_of_mem ht he))

/-- The names of the values that satisfy a test, where every value stands under its name. -/
theorem mem_names (hn : t.keys.Nodup) {name : α → Text}
    (hk : ∀ k v, get? t k = some v → name v = k) {test : α → Bool} :
    k ∈ sortedSet ((t.values.filter test).map name) ↔ ∃ v, get? t k = some v ∧ test v = true := by
  rw [mem_sortedSet, List.mem_map]
  constructor
  · rintro ⟨v, hv, rfl⟩
    obtain ⟨hv, htest⟩ := List.mem_filter.mp hv
    obtain ⟨e, he, rfl⟩ := List.mem_map.mp hv
    have hget := get?_of_mem hn he
    exact ⟨e.2, (hk _ _ hget).symm ▸ hget, htest⟩
  · rintro ⟨v, hv, htest⟩
    exact ⟨v, List.mem_filter.mpr ⟨List.mem_map_of_mem (mem_of_get? hv), htest⟩, hk k v hv⟩

end Table

namespace Text
variable {α β : Type}

theorem perm_sortByKey (es : List (Text × α)) : (sortByKey es).Perm es := List.mergeSort_perm es _

theorem nodup_sortByKey {es : List (Text × α)} (hn : (es.map (·.1)).Nodup) : ((sortByKey es).map (·.1)).Nodup :=
  Table.nodup_of_perm (perm_sortByKey es) hn

theorem sortByKey_map (f : α → β) (es : List (Text × α)) :
    sortByKey (es.map fun e => (e.1, f e.2)) = (sortByKey es).map fun e => (e.1, f e.2) :=
  (List.map_mergeSort (f := fun e : Text × α => (e.1, f e.2)) fun _ _ _ _ => rfl).symm

theorem pairwise_sortByKey (es : List (Text × α)) : (sortByKey es).Pairwise fun a b => le a.1 b.1 = true :=
  List.pairwise_mergeSort (fun a b c => le_trans a.1 b.1 c.1) (fun a b => le_total a.1 b.1) es

theorem sortByKey_sortByKey (es : List (Text × α)) : sortByKey (sortByKey es) = sortByKey es :=
  List.mergeSort_of_pairwise (pairwise_sortByKey es)

/-- Sorting by distinct keys forgets the order that the entries had. -/
theorem sortByKey_perm {es ds : List (Text × α)} (h : es.Perm ds) (hn : (ds.map (·.1)).Nodup) :
    sortByKey es = sortByKey ds := by
  refine List.Perm.eq_of_pairwise (fun a b ha hb hab hba => ?_) (pairwise_sortByKey es) (pairwise_sortByKey ds)
    ((perm_sortByKey es).trans (h.trans (perm_sortByKey ds).symm))
  have hkey : a.1 = b.1 := le_antisymm hab hba
  have ha : a ∈ ds := h.subset ((perm_sortByKey es).subset ha)
  have hb : b ∈ ds := (perm_sortByKey ds).subset hb
  exact Table.eq_of_key hn ha hb hkey

end Text

namespace Json

/-- A property of values that goes from members to arrays and objects holds of every value. -/
@[elab_as_elim]
theorem induct {P : Json → Prop} (null : P null) (bool : ∀ b, P (bool b)) (num : ∀ n, P (num n)) (str : ∀ t, P (str t))
    (arr : ∀ items, (∀ v ∈ items, P v) → P (arr items)) (obj : ∀ fs, (∀ e ∈ fs, P e.2) → P (obj fs)) (v : Json) : P v :=
  @Json.rec P (fun items => ∀ v ∈ items, P v) (fun fs => ∀ e ∈ fs, P e.2) (fun e => P e.2)
    null bool num str arr obj
    (fun _ h => absurd h List.not_mem_nil) (fun _ _ hv hrest => List.forall_mem_cons.mpr ⟨hv, hrest⟩)
    (fun _ h => absurd h List.not_mem_nil) (fun _ _ he hrest => List.forall_mem_cons.mpr ⟨he, hrest⟩)
    (fun _ _ hv => hv) v

theorem writeItems_eq (indent depth : Nat) (items : List Json) :
    writeItems indent depth items = items.map (write indent depth) := by
  induction items with
  | nil => rfl
  | cons v rest ih => rw [writeItems, ih, List.map_cons]

theorem writeFields_eq (indent depth : Nat) (fs : List (Text × Json)) :
    writeFields indent depth fs = fs.map fun e => (e.1, write indent depth e.2) := by
  induction fs with
  | nil => rfl
  | cons e rest ih => rw [writeFields, ih, List.map_cons]

mutual
def arranged : Json → Json
  | null => null
  | bool b => bool b
  | num n => num n
  | str t => str t
  | arr items => arr (arrangedItems items)
  | obj fs => obj (sortByKey (arrangedFields fs))
def arrangedItems : List Json → List Json
  | [] => []
  | v :: rest => arranged v :: arrangedItems rest
def arrangedFields : List (Text × Json) → List (Text × Json)
  | [] => []
  | (k, v) :: rest => (k, arranged v) :: arrangedFields rest
end

theorem arrangedItems_eq (items : List Json) : arrangedItems items = items.map arranged := by
  induction items with
  | nil => rfl
  | cons v rest ih => rw [arrangedItems, ih, List.map_cons]

theorem arrangedFields_eq (fs : List (Text × Json)) : arrangedFields fs = fs.map fun e => (e.1, arranged e.2) := by
  induction fs with
  | nil => rfl
  | cons e rest ih => rw [arrangedFields, ih, List.map_cons]

theorem arranged_arr (items : List Json) : arranged (arr items) = arr (items.map arranged) := by
  rw [arranged, arrangedItems_eq]

theorem arranged_obj (fs : List (Text × Json)) :
    arranged (obj fs) = obj ((sortByKey fs).map fun e => (e.1, arranged e.2)) := by
  rw [arranged, arrangedFields_eq, sortByKey_map]

/-- The canonical text shows nothing of the order of keys. -/
theorem write_arranged (indent : Nat) (v : Json) (depth : Nat) :
    write indent depth v.arranged = write indent depth v := by
  induction v using induct generalizing depth with
  | null => rfl
  | bool b => rfl
  | num n => rfl
  | str t => rfl
  | arr items ih =>
    rw [arranged_arr, write, write, writeItems_eq, writeItems_eq, List.map_map]
    congr 1
    exact List.map_congr_left fun v hv => ih v hv (depth + 1)
  | obj fs ih =>
    rw [arranged_obj, write, write, writeFields_eq, writeFields_eq, List.map_map, sortByKey_map]
    have hsort : (sortByKey fs).map ((fun e => (e.1, write indent (depth + 1) e.2)) ∘ fun e => (e.1, arranged e.2)) =
        (sortByKey fs).map fun e => (e.1, write indent (depth + 1) e.2) :=
      List.map_congr_left fun e he => by
        simp only [Function.comp_apply, ih e ((perm_sortByKey fs).subset he)]
    rw [hsort, sortByKey_map, sortByKey_sortByKey]

theorem stableText_congr {v w : Json} (h : v.arranged = w.arranged) (indent : Nat) :
    stableText indent v = stableText indent w := by
  rw [stableText, stableText, ← write_arranged, h, write_arranged]

end Json
end AnnotationIndex
