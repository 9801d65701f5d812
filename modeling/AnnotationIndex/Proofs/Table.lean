import AnnotationIndex.Table
import Mathlib.Data.List.Basic

/-!
Tables as they are filled entry by entry. The order of the keys follows from the keys alone, each key is
there once, and under each key stands what was put there last.
-/
namespace AnnotationIndex.Table
variable {α β : Type} {t : Table α} {key k : Text} {value : α}

def gather (entries : List (Text × α)) : Table α := entries.foldl (fun t e => put t e.1 e.2) []

section Keys

theorem has_iff : t.has key = true ↔ key ∈ t.keys := by
  simp [has, keys]

theorem get?_eq_none : get? t key = none ↔ key ∉ t.keys := by
  rw [get?, List.lookup_eq_none_iff]
  simp only [keys, List.mem_map, not_exists, not_and, bne_iff_ne, ne_eq]
  exact ⟨fun h e he hk => h e he hk.symm, fun h e he hk => h e he hk.symm⟩

theorem get?_isSome : (get? t key).isSome = true ↔ key ∈ t.keys := by
  rw [← not_iff_not, Bool.not_eq_true, Option.isSome_eq_false_iff, Option.isNone_iff_eq_none, get?_eq_none]

theorem keys_replace : (replace key value t).keys = t.keys := by
  simp only [keys, replace, List.map_map]
  refine List.map_congr_left fun e _ => ?_
  simp only [Function.comp_apply]
  split
  · next h => exact (eq_of_beq h).symm
  · rfl

theorem mem_place : k ∈ (place key value t).keys ↔ k = key ∨ k ∈ t.keys := by
  induction t with
  | nil => simp [place, keys]
  | cons e rest ih =>
    simp only [keys] at ih
    unfold place
    split
    · simp [keys]
    · simp only [keys, List.map_cons, List.mem_cons, ih]
      tauto

theorem nodup_place (h : t.keys.Nodup) (hk : key ∉ t.keys) : (place key value t).keys.Nodup := by
  induction t with
  | nil => simp [place, keys]
  | cons e rest ih =>
    obtain ⟨he, hrest⟩ := List.nodup_cons.mp h
    unfold place
    split
    · exact List.nodup_cons.mpr ⟨hk, h⟩
    · refine List.nodup_cons.mpr ⟨fun hm => ?_, ih hrest fun hm => hk (List.mem_cons_of_mem _ hm)⟩
      cases mem_place.mp hm with
      | inl h' => exact hk (h' ▸ List.mem_cons_self)
      | inr hm => exact he hm

theorem nodup_put (h : t.keys.Nodup) : (put t key value).keys.Nodup := by
  unfold put insert
  split
  · exact h
  · split
    · rwa [keys_replace]
    · next hh => exact nodup_place h (mt has_iff.mpr hh)

theorem mem_of_place {e : Text × α} (h : e ∈ place key value t) : e = (key, value) ∨ e ∈ t := by
  induction t with
  | nil => exact .inl (List.mem_singleton.mp h)
  | cons d rest ih =>
    unfold place at h
    split at h
    · exact List.mem_cons.mp h
    · cases List.mem_cons.mp h with
      | inl h => exact .inr (h ▸ List.mem_cons_self)
      | inr h => exact (ih h).imp_right (List.mem_cons_of_mem d)

/-- An entry of a table is the one that was put in last, or was there before. -/
theorem mem_of_insert {e : Text × α} (h : e ∈ insert t key value) : e = (key, value) ∨ e ∈ t := by
  unfold insert at h
  split at h
  · obtain ⟨d, hd, rfl⟩ := List.mem_map.mp h
    split
    · exact .inl rfl
    · exact .inr hd
  · exact mem_of_place h

theorem mem_of_put {e : Text × α} (h : e ∈ put t key value) : e = (key, value) ∨ e ∈ t := by
  unfold put at h
  split at h
  · exact .inr h
  · exact mem_of_insert h

theorem mem_of_ofList {entries : List (Text × α)} {e : Text × α} (h : e ∈ ofList entries) : e ∈ entries := by
  unfold ofList at h
  suffices hall : ∀ t : Table α, e ∈ entries.foldl (fun t e => insert t e.1 e.2) t → e ∈ t ∨ e ∈ entries from
    (hall [] h).resolve_left List.not_mem_nil
  clear h
  induction entries with
  | nil => exact fun _ h => .inl h
  | cons d rest ih =>
    intro t h
    cases ih _ h with
    | inr h => exact .inr (List.mem_cons_of_mem d h)
    | inl h =>
      cases mem_of_insert h with
      | inl h => exact .inr (h ▸ List.mem_cons_self)
      | inr h => exact .inl h

/-- Leaving out the name that no table of an index has is what putting in one by one does. -/
theorem ofList_filter (entries : List (Text × α)) :
    ofList (entries.filter fun e => e.1 != droppedKey) = gather entries := by
  unfold ofList gather
  suffices h : ∀ t : Table α, (entries.filter fun e => e.1 != droppedKey).foldl (fun t e => insert t e.1 e.2) t =
      entries.foldl (fun t e => put t e.1 e.2) t from h []
  induction entries with
  | nil => exact fun _ => rfl
  | cons e rest ih =>
    intro t
    by_cases hkey : e.1 = droppedKey
    · simp [put, hkey, ih]
    · simp [put, hkey, ih]

theorem mem_of_gather {entries : List (Text × α)} {e : Text × α} (h : e ∈ gather entries) : e ∈ entries := by
  rw [← ofList_filter] at h
  exact (List.mem_filter.mp (mem_of_ofList h)).1

theorem droppedKey_not_mem_put (h : droppedKey ∉ t.keys) : droppedKey ∉ (put t key value).keys := by
  intro hmem
  obtain ⟨e, he, hdropped⟩ := List.mem_map.mp hmem
  by_cases hkey : key = droppedKey
  · rw [put, if_pos (beq_iff_eq.mpr hkey)] at he
    exact h (hdropped ▸ List.mem_map_of_mem he)
  · cases mem_of_put he with
    | inl he => exact hkey (hdropped ▸ (congrArg (·.1) he).symm)
    | inr he => exact h (hdropped ▸ List.mem_map_of_mem he)

theorem nodup_gather (entries : List (Text × α)) : (gather entries).keys.Nodup := by
  unfold gather
  suffices h : ∀ t : Table α, t.keys.Nodup →
      (entries.foldl (fun t e => put t e.1 e.2) t).keys.Nodup from h [] List.nodup_nil
  induction entries with
  | nil => exact fun _ h => h
  | cons e rest ih => exact fun t h => ih (put t e.1 e.2) (nodup_put h)

end Keys

section Values

theorem get?_cons (e : Text × α) (t : Table α) :
    get? (e :: t) k = if k = e.1 then some e.2 else get? t k := by
  rw [get?, List.lookup_cons]
  by_cases h : k = e.1
  · simp [h]
  · simp [h, beq_eq_false_iff_ne.mpr h, get?]

theorem get?_replace (hk : key ∈ t.keys) :
    get? (replace key value t) k = if k = key then some value else get? t k := by
  have other : ∀ t : Table α, k ≠ key → get? (replace key value t) k = get? t k := by
    intro t hne
    induction t with
    | nil => rfl
    | cons e rest ih =>
      rw [replace, List.map_cons, get?_cons, get?_cons]
      split
      · next he =>
        rw [eq_of_beq he, if_neg hne]
        exact ih
      · rw [← replace, ih]
  by_cases hkey : k = key
  · subst hkey
    induction t with
    | nil => exact absurd hk (by simp [keys])
    | cons e rest ih =>
      rw [replace, List.map_cons, get?_cons]
      split
      · simp
      · next he =>
        have hne : k ≠ e.1 := fun h => he (beq_iff_eq.mpr h.symm)
        rw [if_neg hne, if_pos rfl, ← replace, ih ((List.mem_cons.mp hk).resolve_left hne), if_pos rfl]
  · rw [other t hkey, if_neg hkey]

theorem get?_place (hk : key ∉ t.keys) :
    get? (place key value t) k = if k = key then some value else get? t k := by
  induction t with
  | nil => rw [place, get?_cons]
  | cons e rest ih =>
    have hne : e.1 ≠ key := fun h => hk (h ▸ List.mem_cons_self)
    have ih := ih fun hm => hk (List.mem_cons_of_mem _ hm)
    unfold place
    split
    · rw [get?_cons]
    · rw [get?_cons, get?_cons, ih]
      by_cases h : k = e.1
      · simp [h, hne]
      · simp [h]

theorem get?_put (hkey : key ≠ droppedKey) :
    get? (put t key value) k = if k = key then some value else get? t k := by
  rw [put, if_neg (by simpa using hkey), insert]
  split
  · next h => exact get?_replace (has_iff.mp h)
  · next h => exact get?_place (mt has_iff.mpr h)

/-- Under a key stands what was put there last. -/
theorem get?_gather {entries : List (Text × α)} (h : ∀ e ∈ entries, e.1 ≠ droppedKey) :
    get? (gather entries) k = entries.reverse.lookup k := by
  unfold gather
  suffices hl : ∀ t : Table α, get? (entries.foldl (fun t e => put t e.1 e.2) t) k =
      (entries.reverse.lookup k).or (get? t k) by
    rw [hl []]
    exact Option.or_none
  induction entries with
  | nil => exact fun t => rfl
  | cons e rest ih =>
    intro t
    obtain ⟨he, hrest⟩ := List.forall_mem_cons.mp h
    have hone : [e].lookup k = if k = e.1 then some e.2 else none := get?_cons e []
    rw [List.foldl_cons, ih hrest, get?_put he, List.reverse_cons, List.lookup_append, Option.or_assoc, hone]
    split <;> rfl

theorem get?_mapValues (f : α → β) : get? (t.mapValues f) k = (get? t k).map f := by
  induction t with
  | nil => rfl
  | cons e rest ih =>
    rw [mapValues, List.map_cons, get?_cons, get?_cons]
    rw [mapValues] at ih
    split
    · rfl
    · exact ih

theorem get?_of_mem (h : t.keys.Nodup) {e : Text × α} (he : e ∈ t) : get? t e.1 = some e.2 := by
  induction t with
  | nil => exact nomatch he
  | cons d rest ih =>
    obtain ⟨hd, hrest⟩ := List.nodup_cons.mp h
    rw [get?_cons]
    cases List.mem_cons.mp he with
    | inl he => simp [he]
    | inr he =>
      have hne : e.1 ≠ d.1 := by
        intro hkey
        have hm : e.1 ∈ keys rest := List.mem_map_of_mem he
        rw [hkey] at hm
        exact hd hm
      rw [if_neg hne, ih hrest he]

theorem mem_of_get? {e : α} (h : get? t k = some e) : (k, e) ∈ t := by
  induction t with
  | nil => exact nomatch h
  | cons d rest ih =>
    rw [get?_cons] at h
    split at h
    · next hk =>
      obtain rfl := Option.some.inj h
      exact hk ▸ List.mem_cons_self
    · exact List.mem_cons_of_mem d (ih h)

/-- Among entries with distinct keys the last one of a key is the only one. -/
theorem lookup_reverse_of_mem {entries : List (Text × α)} (hn : (entries.map (·.1)).Nodup) {e : Text × α}
    (he : e ∈ entries) : entries.reverse.lookup e.1 = some e.2 := by
  refine get?_of_mem (t := entries.reverse) ?_ (List.mem_reverse.mpr he)
  rw [keys, List.map_reverse]
  exact (List.reverse_perm _).nodup_iff.mpr hn

/-- A table is determined by its keys in order and what stands under them. -/
theorem ext_of_get? {s t : Table α} (hk : s.keys = t.keys) (hn : s.keys.Nodup)
    (h : ∀ k, get? s k = get? t k) : s = t := by
  induction s generalizing t with
  | nil => exact (List.map_eq_nil_iff.mp hk.symm).symm
  | cons d s ih =>
    cases t with
    | nil => exact absurd hk (by simp [keys])
    | cons e t =>
      obtain ⟨hde, hrest⟩ : d.1 = e.1 ∧ keys s = keys t := List.cons.inj hk
      obtain ⟨hd, hs⟩ := List.nodup_cons.mp hn
      have hhead := h d.1
      simp only [get?_cons, hde, if_true, Option.some.injEq] at hhead
      have htail : s = t := by
        refine ih hrest hs fun k => ?_
        by_cases hkd : k = d.1
        · have hs' : get? s k = none := get?_eq_none.mpr (hkd ▸ hd)
          have ht' : get? t k = none := get?_eq_none.mpr (hrest ▸ hkd ▸ hd)
          rw [hs', ht']
        · have hk := h k
          rwa [get?_cons, get?_cons, ← hde, if_neg hkd, if_neg hkd] at hk
      rw [htail, Prod.ext hde hhead]

end Values

section Maps

theorem keys_mapValues (f : α → β) : (t.mapValues f).keys = t.keys := by
  simp [keys, mapValues, Function.comp_def]

theorem mapValues_insert (f : α → β) : (insert t key value).mapValues f = insert (t.mapValues f) key (f value) := by
  have hhas : (t.mapValues f).has key = t.has key := by
    simp [has, mapValues, List.any_map, Function.comp_def]
  have hreplace : (replace key value t).mapValues f = replace key (f value) (t.mapValues f) := by
    simp only [mapValues, replace, List.map_map]
    refine List.map_congr_left fun e _ => ?_
    simp only [Function.comp_apply]
    split <;> rfl
  have hplace : (place key value t).mapValues f = place key (f value) (t.mapValues f) := by
    clear hhas hreplace
    induction t with
    | nil => rfl
    | cons e rest ih =>
      simp only [mapValues] at ih ⊢
      rw [List.map_cons, place, place]
      split
      · rfl
      · rw [List.map_cons, ih]
  simp only [insert, hhas]
  split
  · exact hreplace
  · exact hplace

theorem mapValues_put (f : α → β) : (put t key value).mapValues f = put (t.mapValues f) key (f value) := by
  unfold put
  split
  · rfl
  · exact mapValues_insert f

theorem mapValues_ofList (f : α → β) (entries : List (Text × α)) :
    (ofList entries).mapValues f = ofList (entries.map fun e => (e.1, f e.2)) := by
  unfold ofList
  suffices h : ∀ t : Table α, (entries.foldl (fun t e => t.insert e.1 e.2) t).mapValues f =
      (entries.map fun e => (e.1, f e.2)).foldl (fun t e => t.insert e.1 e.2) (t.mapValues f) from h []
  induction entries with
  | nil => exact fun t => rfl
  | cons e rest ih =>
    intro t
    rw [List.foldl_cons, ih, mapValues_insert, List.map_cons, List.foldl_cons]

theorem mapValues_gather (f : α → β) (entries : List (Text × α)) :
    (gather entries).mapValues f = gather (entries.map fun e => (e.1, f e.2)) := by
  unfold gather
  suffices h : ∀ t : Table α, (entries.foldl (fun t e => put t e.1 e.2) t).mapValues f =
      (entries.map fun e => (e.1, f e.2)).foldl (fun t e => put t e.1 e.2) (t.mapValues f) from h []
  induction entries with
  | nil => exact fun t => rfl
  | cons e rest ih =>
    intro t
    rw [List.foldl_cons, ih, mapValues_put, List.map_cons, List.foldl_cons]

/-- The keys of a table and their order do not depend on the values. -/
theorem keys_gather_congr {entries : List (Text × α)} {entries' : List (Text × β)}
    (h : entries.map (·.1) = entries'.map (·.1)) : (gather entries).keys = (gather entries').keys := by
  have bare : ∀ {γ : Type} (es : List (Text × γ)),
      (gather es).keys = (gather ((es.map (·.1)).map fun k => (k, ()))).keys := by
    intro γ es
    rw [← keys_mapValues (fun _ => ()), mapValues_gather, List.map_map]
    rfl
  rw [bare entries, bare entries', h]

theorem mem_keys_gather {entries : List (Text × α)} (hd : ∀ e ∈ entries, e.1 ≠ droppedKey) :
    k ∈ (gather entries).keys ↔ k ∈ entries.map (·.1) := by
  rw [← get?_isSome, get?_gather hd, ← List.mem_reverse, ← List.map_reverse]
  exact get?_isSome

end Maps
end AnnotationIndex.Table
