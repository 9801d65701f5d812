import AnnotationIndex.Proofs.JsonText

/-!
The canonical text of a value. It is read back as the same value but for the order of keys, so two values have the
same canonical text exactly if nothing but the order of their keys tells them apart. (There is one zero among the
numbers, with no sign to tell it by.)
-/
namespace AnnotationIndex.Json
open AnnotationIndex.Text (sortByKey)

inductive WellFormed : Json → Prop
  | null : WellFormed null
  | bool (b : Bool) : WellFormed (bool b)
  | num {n : Number} : n.Double → WellFormed (num n)
  | str (t : Text) : WellFormed (str t)
  | arr {items : List Json} : (∀ v ∈ items, WellFormed v) → WellFormed (arr items)
  | obj {fs : List (Text × Json)} : (fs.map (·.1)).Nodup → (∀ e ∈ fs, WellFormed e.2) → WellFormed (obj fs)

theorem WellFormed.legible {v : Json} (h : v.WellFormed) : v.Legible := by
  induction h with
  | null => exact .null
  | bool b => exact .bool b
  | num hn => exact .num (readsBack_of_double hn)
  | str t => exact .str t
  | arr _ ih => exact .arr ih
  | obj _ _ ih => exact .obj ih

/- Arrays agree place by place and objects key by key, so the order of keys does not count. -/
inductive Same : Json → Json → Prop
  | null : Same null null
  | bool (b : Bool) : Same (bool b) (bool b)
  | num (n : Number) : Same (num n) (num n)
  | str (t : Text) : Same (str t) (str t)
  | arr {vs ws : List Json} : vs.length = ws.length →
      (∀ (i : Nat) (v w : Json), vs[i]? = some v → ws[i]? = some w → Same v w) → Same (arr vs) (arr ws)
  | obj {fs gs : List (Text × Json)} : (∀ k, (Table.get? fs k).isSome = (Table.get? gs k).isSome) →
      (∀ k v w, Table.get? fs k = some v → Table.get? gs k = some w → Same v w) → Same (obj fs) (obj gs)

namespace Same
variable {u v w : Json}

theorem symm (h : v.Same w) : w.Same v := by
  induction h with
  | null => exact .null
  | bool b => exact .bool b
  | num n => exact .num n
  | str t => exact .str t
  | arr hl _ ih => exact .arr hl.symm fun i w v hw hv => ih i v w hv hw
  | obj hk _ ih => exact .obj (fun k => (hk k).symm) fun k w v hw hv => ih k v w hv hw

theorem trans (h : u.Same v) (h' : v.Same w) : u.Same w := by
  induction h generalizing w with
  | null => exact h'
  | bool b => exact h'
  | num n => exact h'
  | str t => exact h'
  | @arr us vs hl _ ih =>
    cases h' with
    | arr hl' h' =>
      refine .arr (hl.trans hl') fun i u w hu hw => ?_
      have hi : i < vs.length := hl ▸ (List.getElem?_eq_some_iff.mp hu).1
      exact ih i u vs[i] hu (List.getElem?_eq_getElem hi) (h' i vs[i] w (List.getElem?_eq_getElem hi) hw)
  | obj hk _ ih =>
    cases h' with
    | obj hk' h' =>
      refine .obj (fun k => (hk k).trans (hk' k)) fun k u w hu hw => ?_
      obtain ⟨v, hv⟩ := Option.isSome_iff_exists.mp ((hk k).symm.trans (by rw [hu]; rfl))
      exact ih k u v hu hv (h' k v w hv hw)

/-- Sorting the keys of the same values leaves no difference. -/
theorem arranged_eq (h : v.Same w) (hv : v.WellFormed) (hw : w.WellFormed) : v.arranged = w.arranged := by
  induction h with
  | null => rfl
  | bool b => rfl
  | num n => rfl
  | str t => rfl
  | @arr vs ws hl _ ih =>
    cases hv with
    | arr hv =>
      cases hw with
      | arr hw =>
        have hitems : vs.map arranged = ws.map arranged := by
          refine List.ext_getElem (by simpa using hl) fun i hi hi' => ?_
          rw [List.length_map] at hi hi'
          rw [List.getElem_map, List.getElem_map]
          exact ih i vs[i] ws[i] (List.getElem?_eq_getElem hi) (List.getElem?_eq_getElem hi')
            (hv _ (List.getElem_mem hi)) (hw _ (List.getElem_mem hi'))
        rw [arranged_arr, arranged_arr, hitems]
  | @obj fs gs hk _ ih =>
    cases hv with
    | obj hfs hv =>
      cases hw with
      | obj hgs hw =>
        have hget : ∀ k, Table.get? (Table.mapValues arranged fs) k = Table.get? (Table.mapValues arranged gs) k := by
          intro k
          have hboth := hk k
          rw [Table.get?_mapValues, Table.get?_mapValues]
          cases hf : Table.get? fs k with
          | none =>
            have hg : Table.get? gs k = none := by simpa [hf] using hboth
            rw [hg]
          | some v =>
            obtain ⟨w, hg⟩ : ∃ w, Table.get? gs k = some w := Option.isSome_iff_exists.mp (by simpa [hf] using hboth)
            rw [hg, Option.map_some, Option.map_some,
              ih k v w hf hg (hv _ (Table.mem_of_get? hf)) (hw _ (Table.mem_of_get? hg))]
        have hkeys : ∀ hs : Table Json, (hs.map (·.1)).Nodup → (hs.mapValues arranged).keys.Nodup :=
          fun hs h => Table.keys_mapValues (t := hs) arranged ▸ h
        have hperm := Table.perm_of_get? (hkeys fs hfs) (hkeys gs hgs) hget
        rw [arranged_obj, arranged_obj, ← Text.sortByKey_map, ← Text.sortByKey_map]
        exact congrArg Json.obj (Text.sortByKey_perm hperm (hkeys gs hgs))

end Same

section Stored
variable {v : Json}

/-- What is read back is the same value. -/
theorem WellFormed.same_stored (h : v.WellFormed) : v.stored.Same v := by
  induction h with
  | null => exact .null
  | bool b => exact .bool b
  | @num n hn =>
    rw [stored_num (readsBack_of_double hn)]
    exact .num n
  | str t => exact .str t
  | arr _ ih =>
    rw [stored_arr]
    refine .arr (List.length_map _) fun i u w hu hw => ?_
    rw [List.getElem?_map, hw, Option.map_some] at hu
    exact Option.some.inj hu ▸ ih w (List.mem_of_getElem? hw)
  | obj hn _ ih =>
    rw [stored_obj]
    refine .obj (fun k => by rw [get?_stored hn, Option.isSome_map]) fun k u w hu hw => ?_
    rw [get?_stored hn, hw, Option.map_some] at hu
    exact Option.some.inj hu ▸ ih (k, w) (Table.mem_of_get? hw)

theorem WellFormed.stored (h : v.WellFormed) : v.stored.WellFormed := by
  induction h with
  | null => exact .null
  | bool b => exact .bool b
  | num hn =>
    rw [stored_num (readsBack_of_double hn)]
    exact .num hn
  | str t => exact .str t
  | arr _ ih =>
    rw [stored_arr]
    exact .arr (List.forall_mem_map.mpr ih)
  | @obj fs hn _ ih =>
    have hkeys : (((sortByKey fs).map fun e => (e.1, e.2.stored)).map (·.1)).Nodup := by
      rw [List.map_map]
      exact Text.nodup_sortByKey hn
    have hperm := Table.perm_ofList hkeys
    rw [stored_obj]
    refine .obj (Table.nodup_of_perm hperm hkeys) fun e he => ?_
    obtain ⟨d, hd, rfl⟩ := List.mem_map.mp (hperm.subset he)
    exact ih d ((Text.perm_sortByKey fs).subset hd)

end Stored

/-- The canonical text of a value is read as the same value, and it tells a value from every other one that is not the
same. -/
theorem canonical_stableText {v : Json} (hv : v.WellFormed) (indent : Nat) :
    (∃ u, parse (stableText indent v) = some u ∧ u.WellFormed ∧ u.Same v) ∧
      ∀ w : Json, w.WellFormed → (stableText indent v = stableText indent w ↔ v.Same w) := by
  have hread : ∀ w : Json, w.WellFormed → parse (stableText indent w) = some w.stored := by
    intro w hw
    have happend : parse (stableText indent w ++ []) = some w.stored :=
      parse_stableText_append hw.legible indent (fun _ h => nomatch h) rfl
    rwa [List.append_nil] at happend
  refine ⟨⟨v.stored, hread v hv, hv.stored, hv.same_stored⟩, fun w hw => ⟨fun htext => ?_, fun hsame => ?_⟩⟩
  · have hstored : v.stored = w.stored := Option.some.inj (by rw [← hread v hv, ← hread w hw, htext])
    exact hv.same_stored.symm.trans (hstored ▸ hw.same_stored)
  · exact stableText_congr (hsame.arranged_eq hv hw) indent

def tenth : Json := num (.finite 7205759403792794 (-56))

def sample : Json :=
  obj [("b", arr [str [0xD800], tenth]), ("10", obj [("2", null), ("", bool true)])]

def reordered : Json :=
  obj [("10", obj [("", bool true), ("2", null)]), ("b", arr [str [0xD800], tenth])]

theorem canonical_stableText_reordered :
    (sample.WellFormed ∧ reordered.WellFormed) ∧
      (∃ u, parse (stableText 2 sample) = some u ∧ u.WellFormed ∧ u.Same sample) ∧
      (stableText 2 sample = stableText 2 reordered ↔ sample.Same reordered) := by
  have htenth : tenth.WellFormed := .num (.finite (by decide) (by decide) (by decide) (.inl (by decide)))
  have hlist : (arr [str [0xD800], tenth]).WellFormed := .arr (by simpa using ⟨.str _, htenth⟩)
  have hsample : sample.WellFormed := by
    refine .obj (by decide) ?_
    have hinner : (obj [("2", null), ("", bool true)]).WellFormed := .obj (by decide) (by simpa using ⟨.null, .bool _⟩)
    simpa using ⟨hlist, hinner⟩
  have hreordered : reordered.WellFormed := by
    refine .obj (by decide) ?_
    have hinner : (obj [("", bool true), ("2", null)]).WellFormed := .obj (by decide) (by simpa using ⟨.bool _, .null⟩)
    simpa using ⟨hinner, hlist⟩
  have hcanonical := canonical_stableText hsample 2
  exact ⟨⟨hsample, hreordered⟩, hcanonical.1, hcanonical.2 reordered hreordered⟩

end AnnotationIndex.Json
