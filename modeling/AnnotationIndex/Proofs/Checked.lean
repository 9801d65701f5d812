import AnnotationIndex.Json.Check
import AnnotationIndex.Proofs.JsonText

/-!
Checks that read back what was written. Each kind of check is shown once to read the values that it is for; an object is
read field by field, in the order in which its check names them.
-/
namespace AnnotationIndex
open Text

namespace Checked
variable {α β : Type}

theorem all_ok (as : List α) : all (as.map ok) = ok as := by
  induction as with
  | nil => rfl
  | cons a rest ih => rw [List.map_cons, all, ih]; rfl

end Checked

namespace Table
variable {α β : Type}

/-- The table in the order in which it is read back: its entries are put in sorted, and once more by the check. -/
def settled (t : Table α) : Table α := ofList (ofList (sortByKey t))

theorem perm_settled {t : Table α} (hn : t.keys.Nodup) : t.settled.Perm t := by
  have hsorted : ((sortByKey t).map (·.1)).Nodup := nodup_sortByKey hn
  have hperm := perm_ofList hsorted
  exact (perm_ofList (nodup_of_perm hperm hsorted)).trans (hperm.trans (perm_sortByKey t))

end Table

namespace Check
variable {α β : Type}

structure Reads (c : Check α) (v : Option Json) (a : α) : Prop where
  storable : ∀ w ∈ v, w.Storable
  ok : c (v.map Json.stored) = .ok a

namespace Reads
variable {c : Check α} {v : Json} {a : α}

theorem of_some (hs : v.Storable) (h : c (some v.stored) = .ok a) : Reads c (some v) a :=
  ⟨fun _ hw => Option.some.inj hw ▸ hs, h⟩

theorem string (t : Text) : Reads Check.string (some (.str t)) t := .of_some (.str t) rfl

theorem boolean (b : Bool) : Reads Check.boolean (some (.bool b)) b := .of_some (.bool b) rfl

/-- A number that passes every test. -/
theorem numberWith {n : Number} (hn : Json.ReadsBack n) (hu : n ≠ .undefined) {tests : List (Number → Option Text)}
    (ht : ∀ test ∈ tests, test n = none) : Reads (Check.numberWith tests) (some (.num n)) n := by
  refine .of_some (.num hn) ?_
  have hnone : (tests.filterMap fun test => test n) = [] := List.filterMap_eq_nil_iff.mpr ht
  simp only [Check.numberWith, Json.stored_num hn, if_neg hu, hnone]

theorem optional (f : α → Json) {x : Option α} (h : ∀ a ∈ x, Reads c (some (f a)) a) :
    Reads (Check.optional c) (x.map f) x := by
  cases x with
  | none => exact ⟨fun _ hw => absurd hw (by simp), rfl⟩
  | some a =>
    have ha := h a rfl
    refine ⟨ha.storable, ?_⟩
    have hok := ha.ok
    simp only [Option.map_some] at hok ⊢
    rw [Check.optional, hok]
    rfl

theorem optionalString (t : Option Text) : Reads (Check.optional Check.string) (t.map .str) t :=
  .optional .str fun t _ => .string t

/-- The name of a member of an enumeration. -/
theorem oneOf {names : List Text} {ofName? : Text → Option α} {name : Text} (h : ofName? name = some a) :
    Reads (Check.oneOf names ofName?) (some (.str name)) a :=
  .of_some (.str name) (by simp only [Check.oneOf, Json.stored, h])

theorem codeOf {names : List Text} {ofName? : Text → Option α} {name : Text} (h : ofName? name = some a) :
    Reads (Check.codeOf names ofName?) (some (.str name)) a :=
  .of_some (.str name) (by simp only [Check.codeOf, Check.oneOf, Json.stored, h])

theorem trueOrMissing (b : Bool) : Reads Check.trueOrMissing (if b then some (.bool true) else none) b := by
  cases b with
  | false => exact ⟨fun _ hw => absurd hw (by simp), rfl⟩
  | true => exact .of_some (.bool true) rfl

theorem nullable {fs : List (Text × Json)} (h : Reads c (some (.obj fs)) a) :
    Reads (Check.nullable c) (some (.obj fs)) (some a) := by
  refine ⟨h.storable, ?_⟩
  have hok := h.ok
  simp only [Option.map_some, Json.stored_obj] at hok ⊢
  exact congrArg (Checked.map some) hok

/-- A list is read by its members. -/
theorem list (f : α → Json) {as : List α} (h : ∀ a ∈ as, Reads c (some (f a)) a) :
    Reads (Check.list c) (some (.arr (as.map f))) as := by
  refine .of_some (.arr fun v hv => ?_) ?_
  · obtain ⟨a, ha, rfl⟩ := List.mem_map.mp hv
    exact (h a ha).storable _ rfl
  rw [Json.stored_arr, List.map_map]
  have hmembers : ((as.map (Json.stored ∘ f)).zipIdx.map fun e => (c (some e.1)).under (.index e.2)) =
      as.map Checked.ok := by
    refine List.ext_getElem (by simp) fun i hi hi' => ?_
    have hin : i < as.length := by simpa using hi'
    have hok := (h as[i] (List.getElem_mem hin)).ok
    simp only [Option.map_some] at hok
    simp only [List.getElem_map, List.getElem_zipIdx, Function.comp_apply, hok, Checked.under]
  exact (congrArg Checked.all hmembers).trans (Checked.all_ok as)

theorem texts (ts : List Text) : Reads Check.texts (some (Json.texts ts)) ts := .list .str fun t _ => .string t

/-- A table is read by its values, and comes back in the order of its keys. -/
theorem tableOf (f : α → Json) {g : α → α} {t : Table α} (hn : t.keys.Nodup) (hd : Table.droppedKey ∉ t.keys)
    (h : ∀ e ∈ t, Reads c (some (f e.2)) (g e.2)) :
    Reads (Check.table c) (some (.obj (t.mapValues f))) (t.settled.mapValues g) := by
  refine .of_some (.obj ?_ fun d hd => ?_) ?_
  · change (t.mapValues f).keys.Nodup
    rwa [Table.keys_mapValues]
  · obtain ⟨e, he, rfl⟩ := List.mem_map.mp hd
    exact (h e he).storable _ rfl
  have hsorted : ((sortByKey t).map (·.1)).Nodup := nodup_sortByKey hn
  have hperm : (Table.ofList (sortByKey t)).Perm t := (Table.perm_ofList hsorted).trans (perm_sortByKey t)
  have hstored : (Json.obj (t.mapValues f)).stored =
      .obj ((Table.ofList (sortByKey t)).mapValues fun a => (f a).stored) := by
    rw [Json.stored_obj, Table.mapValues_ofList]
    congr 2
    rw [Table.mapValues, sortByKey_map, List.map_map]
    rfl
  have hmembers : (((Table.ofList (sortByKey t)).mapValues fun a => (f a).stored).map fun e =>
      ((c (some e.2)).under (.key e.1)).map fun a => (e.1, a)) =
      ((Table.ofList (sortByKey t)).mapValues g).map Checked.ok := by
    rw [Table.mapValues, Table.mapValues, List.map_map, List.map_map]
    refine List.map_congr_left fun e he => ?_
    have hok := (h e (hperm.subset he)).ok
    simp only [Option.map_some] at hok
    simp only [Function.comp_apply, hok, Checked.under, Checked.map]
  have hkept : ((Table.ofList (sortByKey t)).mapValues g).filter (fun e => e.1 != Table.droppedKey) =
      (Table.ofList (sortByKey t)).mapValues g := by
    refine List.filter_eq_self.mpr fun e he => ?_
    obtain ⟨d, hd', rfl⟩ := List.mem_map.mp he
    have hkey : d.1 ≠ Table.droppedKey := fun hk => hd (hk ▸ List.mem_map_of_mem (hperm.subset hd'))
    simpa using hkey
  rw [hstored]
  have hall := (congrArg Checked.all hmembers).trans (Checked.all_ok _)
  calc Check.table c (some (.obj ((Table.ofList (sortByKey t)).mapValues fun a => (f a).stored)))
      = (Checked.ok ((Table.ofList (sortByKey t)).mapValues g)).map fun es =>
          Table.ofList (es.filter fun e => e.1 != Table.droppedKey) := congrArg (Checked.map _) hall
    _ = .ok (t.settled.mapValues g) := by
      rw [Checked.map, hkept]
      exact congrArg Checked.ok (Table.mapValues_ofList g (Table.ofList (sortByKey t))).symm

theorem table (f : α → Json) {t : Table α} (hn : t.keys.Nodup) (hd : Table.droppedKey ∉ t.keys)
    (h : ∀ e ∈ t, Reads c (some (f e.2)) e.2) : Reads (Check.table c) (some (.obj (t.mapValues f))) t.settled := by
  have htable := tableOf f (g := id) hn hd h
  rwa [show t.settled.mapValues id = t.settled from List.map_id _] at htable

end Reads

section Fields

def present (entries : List (String × Option Json)) : List (Text × Json) :=
  entries.filterMap fun e => e.2.map fun v => (Text.ofString e.1, v)

theorem present_cons (e : String × Option Json) (rest : List (String × Option Json)) :
    present (e :: rest) = (e.2.map fun v => (Text.ofString e.1, v)).toList ++ present rest := by
  obtain ⟨key, v⟩ := e
  cases v <;> rfl

theorem keys_present (entries : List (String × Option Json)) :
    ((present entries).map (·.1)).Sublist (entries.map fun e => Text.ofString e.1) := by
  induction entries with
  | nil => exact List.Sublist.refl _
  | cons e rest ih =>
    rw [present_cons]
    cases e.2 with
    | none => exact ih.cons _
    | some v => exact ih.cons_cons _

theorem get?_present {entries : List (String × Option Json)} (hn : (entries.map fun e => Text.ofString e.1).Nodup)
    {e : String × Option Json} (he : e ∈ entries) : Table.get? (present entries) (Text.ofString e.1) = e.2 := by
  induction entries with
  | nil => exact absurd he List.not_mem_nil
  | cons d rest ih =>
    obtain ⟨hd, hrest⟩ := List.nodup_cons.mp hn
    rw [present_cons]
    cases List.mem_cons.mp he with
    | inl he =>
      subst he
      cases hv : e.2 with
      | none => exact Table.get?_eq_none.mpr fun hm => hd ((keys_present rest).subset hm)
      | some v => exact (Table.get?_cons _ _).trans (if_pos rfl)
    | inr he =>
      have hne : Text.ofString e.1 ≠ Text.ofString d.1 := by
        intro h
        refine hd ?_
        change Text.ofString d.1 ∈ _
        exact h ▸ List.mem_map_of_mem he
      cases d.2 with
      | none => exact ih hrest he
      | some v => exact ((Table.get?_cons _ _).trans (if_neg hne)).trans (ih hrest he)

theorem nodup_fields {entries : List (String × Option Json)} (hn : (entries.map fun e => Text.ofString e.1).Nodup) :
    ((Table.ofList (present entries)).map (·.1)).Nodup :=
  Table.nodup_of_perm (Table.perm_ofList (hn.sublist (keys_present entries))) (hn.sublist (keys_present entries))

theorem field?_fields {entries : List (String × Option Json)} (hn : (entries.map fun e => Text.ofString e.1).Nodup)
    {e : String × Option Json} (he : e ∈ entries) : (Json.fields entries).field? (Text.ofString e.1) = e.2 := by
  change Table.get? (Table.ofList (present entries)) _ = _
  have hkeys := hn.sublist (keys_present entries)
  rw [Table.get?_perm (Table.perm_ofList hkeys) hkeys, get?_present hn he]

/-- A field of an object, read back. -/
theorem field?_stored {entries : List (String × Option Json)} (hn : (entries.map fun e => Text.ofString e.1).Nodup)
    {e : String × Option Json} (he : e ∈ entries) :
    (Json.fields entries).stored.field? (Text.ofString e.1) = e.2.map Json.stored := by
  change (Json.obj (Table.ofList (present entries))).stored.field? _ = _
  have hkeys := hn.sublist (keys_present entries)
  rw [Json.stored_obj, Json.field?, Json.get?_stored (nodup_fields hn), Table.get?_perm (Table.perm_ofList hkeys) hkeys,
    get?_present hn he]

structure ReadsAll (keys : List String) (entries : List (String × Option Json)) (read : List (Text × Json) → Checked α)
    (a : α) : Prop where
  keys_eq : entries.map (·.1) = keys
  storable : ∀ e ∈ entries, ∀ v ∈ e.2, v.Storable
  ok : ∀ fs, (∀ e ∈ entries, Table.get? fs (Text.ofString e.1) = e.2.map Json.stored) → read fs = .ok a

namespace ReadsAll
variable {keys : List String} {entries : List (String × Option Json)} {c : Check α} {v : Option Json} {a : α}

theorem field_ok (h : Reads c v a) {key : String} {fs : List (Text × Json)}
    (hfs : Table.get? fs (Text.ofString key) = v.map Json.stored) : field fs key c = .ok a := by
  rw [field, hfs, h.ok]
  rfl

/-- The first field of an object. -/
theorem map (f : α → β) (key : String) (h : Reads c v a) :
    ReadsAll [key] [(key, v)] (fun fs => f <$> field fs key c) (f a) where
  keys_eq := rfl
  storable := by simpa using h.storable
  ok := by
    intro fs hfs
    rw [field_ok h (hfs _ List.mem_cons_self)]
    rfl

/-- One more field. -/
theorem seq {read : List (Text × Json) → Checked (α → β)} {f : α → β} (hall : ReadsAll keys entries read f)
    (key : String)
    (h : Reads c v a) : ReadsAll (key :: keys) ((key, v) :: entries) (fun fs => read fs <*> field fs key c) (f a) where
  keys_eq := congrArg _ hall.keys_eq
  storable := List.forall_mem_cons.mpr ⟨h.storable, hall.storable⟩
  ok := by
    intro fs hfs
    obtain ⟨hlast, hrest⟩ := List.forall_mem_cons.mp hfs
    rw [hall.ok fs hrest, field_ok h hlast]
    rfl

/-- An object with those fields, in any order. -/
theorem objectOf {read : List (Text × Json) → Checked α} (h : ReadsAll keys entries read a) {fs : List (Text × Json)}
    (hn : (fs.map (·.1)).Nodup) (hs : ∀ e ∈ fs, e.2.Storable)
    (hget : ∀ e ∈ entries, Table.get? fs (Text.ofString e.1) = e.2) : Reads (Check.object read) (some (.obj fs)) a := by
  refine .of_some (.obj hn hs) ?_
  rw [Json.stored_obj]
  refine h.ok _ fun e he => ?_
  rw [Json.get?_stored hn, hget e he]

/-- The object of those fields. -/
theorem object {read : List (Text × Json) → Checked α} (h : ReadsAll keys entries read a)
    (hk : (keys.map Text.ofString).Nodup) : Reads (Check.object read) (some (Json.fields entries.reverse)) a := by
  have hn : (entries.reverse.map fun e => Text.ofString e.1).Nodup := by
    rw [← h.keys_eq, List.map_map] at hk
    exact (List.map_reverse ▸ List.reverse_perm _).nodup_iff.mpr hk
  have hkeys := hn.sublist (keys_present entries.reverse)
  have hperm : (Table.ofList (present entries.reverse)).Perm (present entries.reverse) := Table.perm_ofList hkeys
  refine h.objectOf (nodup_fields hn) (fun d hd => ?_) fun e he => ?_
  · obtain ⟨e, he, hv⟩ := List.mem_filterMap.mp (hperm.subset hd)
    obtain ⟨v, hv', rfl⟩ := Option.map_eq_some_iff.mp hv
    exact h.storable e (List.mem_reverse.mp he) v hv'
  · exact (Table.get?_perm hperm hkeys _).trans (get?_present hn (List.mem_reverse.mpr he))

end ReadsAll
end Fields
end Check
end AnnotationIndex
