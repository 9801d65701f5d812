import AnnotationIndex.Proofs.Inquiry
import AnnotationIndex.Proofs.ModuleTarget

/-!
The search for an exported name. From each unit it goes on only through the requests that pass names on,
and with enough fuel more fuel changes nothing.
-/
namespace AnnotationIndex
open Text

namespace LinkUnit
variable {u : LinkUnit}

def passes (u : LinkUnit) (row : ExportRow) : Option ModuleRequest :=
  match row.source with
  | some specifier => some ⟨specifier, false⟩
  | none =>
    let name := row.binding.getD row.name
    if (u.symbolNamed name).isSome then none else (u.binding? name).map (·.statement.request)

def passing (u : LinkUnit) : List ModuleRequest := u.exports.filterMap u.passes

def listed (u : LinkUnit) : List Text := u.symbols.map (·.qualifiedName)

theorem symbolNamed_listed {name q : Text} (h : u.symbolNamed name = some q) : q ∈ u.listed := by
  obtain ⟨s, hs, rfl⟩ := Option.map_eq_some_iff.mp h
  exact List.mem_map_of_mem (List.mem_of_find?_eq_some hs)

theorem binding?_eq_some {name : Text} {b : ImportBinding} (h : u.binding? name = some b) :
    b.statement ∈ u.imports ∧ ∃ n ∈ b.statement.names, n.name = b.name := by
  obtain ⟨s, hs, hb⟩ := List.exists_of_findSome?_eq_some h
  obtain ⟨n, hn, rfl⟩ := Option.map_eq_some_iff.mp hb
  exact ⟨hs, n, List.mem_of_find?_eq_some hn, rfl⟩

/-- What passes names on is a row that states where its name comes from, or an import statement. -/
theorem mem_passing {r : ModuleRequest} (h : r ∈ u.passing) :
    (∃ row ∈ u.exports, ∃ specifier, row.source = some specifier ∧ r = ⟨specifier, false⟩) ∨
      ∃ s ∈ u.imports, r = s.request := by
  obtain ⟨row, hrow, hr⟩ := List.mem_filterMap.mp h
  unfold passes at hr
  cases hs : row.source with
  | some specifier =>
    simp only [hs, Option.some.injEq] at hr
    exact .inl ⟨row, hrow, specifier, hs, hr.symm⟩
  | none =>
    simp only [hs, Option.ite_none_left_eq_some, Option.map_eq_some_iff] at hr
    obtain ⟨_, b, hb, rfl⟩ := hr
    exact .inr ⟨b.statement, (binding?_eq_some hb).1, rfl⟩

theorem sourceName_mem_names {row : ExportRow} (h : row ∈ u.exports) :
    row.sourceName.getD row.name ∈ u.names := by
  refine List.mem_append_left _ (List.mem_flatMap.mpr ⟨row, h, ?_⟩)
  cases row.sourceName <;> simp

theorem binding_mem_names {name : Text} {b : ImportBinding} (h : u.binding? name = some b) :
    b.name ∈ u.names := by
  obtain ⟨hs, n, hn, he⟩ := binding?_eq_some h
  refine List.mem_append_right _ (List.mem_flatMap.mpr ⟨b.statement, hs, ?_⟩)
  exact he ▸ List.mem_map_of_mem hn

section Asks
variable {targets : ModuleRequest → Text → List Text} {P : ModuleRequest → Text → Prop}
  {Q : ExportKey → Prop} {S : Text → Prop} {name : Text} {row : ExportRow}

theorem asks_row (hrow : row ∈ u.exports) (hP : ∀ r ∈ u.passing, P r u.path)
    (hQ : ∀ r ∈ u.passing, ∀ target ∈ targets r u.path, ∀ n ∈ name :: u.names, Q ⟨target, n⟩)
    (hS : ∀ q ∈ u.listed, S q) : (u.askRow row).Asks targets P Q S := by
  have passed : ∀ r n, u.passes row = some r → n ∈ u.names →
      (Inquiry.imported u.path r n).Asks targets P Q S := by
    intro r n hr hn
    have hm : r ∈ u.passing := List.mem_filterMap.mpr ⟨row, hrow, hr⟩
    exact Inquiry.asks_imported (hP r hm) fun target ht => hQ r hm target ht n (List.mem_cons_of_mem _ hn)
  unfold askRow
  cases hsource : row.source with
  | some specifier =>
    dsimp only
    split
    · exact Lookup.within_nothing S
    · exact passed _ _ (by simp [passes, hsource]) (sourceName_mem_names hrow)
  | none =>
    dsimp only
    cases hs : u.symbolNamed (row.binding.getD row.name) with
    | some q => exact fun q' hq => .inr (Option.some.inj hq ▸ hS q (symbolNamed_listed hs))
    | none =>
      cases hb : u.binding? (row.binding.getD row.name) with
      | none => exact Lookup.within_nothing S
      | some b => exact passed _ _ (by simp [passes, hsource, hs, hb]) (binding_mem_names hb)

theorem asks_star (hrow : row ∈ u.exports) (hP : ∀ r ∈ u.passing, P r u.path)
    (hQ : ∀ r ∈ u.passing, ∀ target ∈ targets r u.path, ∀ n ∈ name :: u.names, Q ⟨target, n⟩) :
    (u.askStar name row).Asks targets P Q S := by
  unfold askStar
  cases hsource : row.source with
  | none => exact Lookup.within_nothing S
  | some specifier =>
    have hm : (⟨specifier, false⟩ : ModuleRequest) ∈ u.passing :=
      List.mem_filterMap.mpr ⟨row, hrow, by simp [passes, hsource]⟩
    refine ⟨hP _ hm, Inquiry.asks_first fun target ht => ⟨?_, fun l hl => Lookup.within_inside hl⟩⟩
    exact hQ _ hm target ht name List.mem_cons_self

/-- What a unit asks about a name, it asks through the requests that pass names on. -/
theorem asks_name (hP : ∀ r ∈ u.passing, P r u.path)
    (hQ : ∀ r ∈ u.passing, ∀ target ∈ targets r u.path, ∀ n ∈ name :: u.names, Q ⟨target, n⟩)
    (hS : ∀ q ∈ u.listed, S q) : (u.askName name).Asks targets P Q S := by
  have own : (Inquiry.first u.askRow (u.exports.filter fun r => r.name == name)).Asks targets P Q S :=
    Inquiry.asks_first fun row hrow => asks_row ((List.mem_filter.mp hrow).1) hP hQ hS
  unfold askName
  dsimp only
  split
  · exact own
  · exact own.orElse (Inquiry.asks_first fun row hrow => asks_star ((List.mem_filter.mp hrow).1) hP hQ)

end Asks

section Honest

theorem honest_row (u : LinkUnit) (row : ExportRow) : (u.askRow row).Honest true := by
  unfold askRow
  cases row.source with
  | some specifier =>
    dsimp only
    split
    · rfl
    · exact Inquiry.honest_imported _ _ _
  | none =>
    dsimp only
    cases u.symbolNamed (row.binding.getD row.name) with
    | some q => rfl
    | none =>
      cases u.binding? (row.binding.getD row.name) with
      | none => rfl
      | some b => exact Inquiry.honest_imported _ _ _

theorem honest_star (u : LinkUnit) (name : Text) (row : ExportRow) : (u.askStar name row).Honest true := by
  unfold askStar
  cases row.source with
  | none => rfl
  | some specifier =>
    intro targets
    refine Inquiry.honest_first fun target _ l => ?_
    show l.inside.complete = (true && l.complete)
    unfold Lookup.inside
    split <;> simp

theorem honest_name (u : LinkUnit) (name : Text) : (u.askName name).Honest true := by
  have own : (Inquiry.first u.askRow (u.exports.filter fun r => r.name == name)).Honest true :=
    Inquiry.honest_first fun row _ => u.honest_row row
  unfold askName
  dsimp only
  split
  · exact own
  · exact own.orElse (Inquiry.honest_first fun row _ => u.honest_star name row)

end Honest
end LinkUnit

namespace LinkTables
variable {t : LinkTables} {k : ExportKey}

theorem unit?_mem {path : Text} {u : LinkUnit} (h : t.unit? path = some u) : u ∈ t.units ∧ u.path = path :=
  ⟨List.mem_reverse.mp (List.mem_of_find?_eq_some h), by simpa using List.find?_some h⟩

theorem unit?_isSome {path : Text} : (t.unit? path).isSome = true ↔ path ∈ t.units.map (·.path) := by
  simp [unit?]

theorem names_subset_allNames {u : LinkUnit} (h : u ∈ t.units) {n : Text} (hn : n ∈ u.names) :
    n ∈ t.allNames := List.mem_flatMap.mpr ⟨u, h, hn⟩

theorem honest_inquiry (t : LinkTables) (k : ExportKey) : (t.inquiry k).Honest true := by
  unfold inquiry
  cases t.unit? k.path with
  | none => rfl
  | some u => exact u.honest_name k.name

section Asks
variable {P : ModuleRequest → Text → Prop} {Q : ExportKey → Prop} {S : Text → Prop}

theorem asks_inquiry (hP : ∀ u, t.unit? k.path = some u → ∀ r ∈ u.passing, P r u.path)
    (hQ : ∀ u, t.unit? k.path = some u → ∀ r ∈ u.passing, ∀ target ∈ t.targets r u.path,
      ∀ n ∈ k.name :: u.names, Q ⟨target, n⟩)
    (hS : ∀ u, t.unit? k.path = some u → ∀ q ∈ u.listed, S q) :
    (t.inquiry k).Asks t.targets P Q S := by
  unfold inquiry
  cases h : t.unit? k.path with
  | none => exact Lookup.within_nothing S
  | some u => exact LinkUnit.asks_name (hP u h) (hQ u h) (hS u h)

end Asks

section Fuel

def reachable (t : LinkTables) (names : List Text) : List ExportKey :=
  t.units.flatMap fun u => names.map fun n => ⟨u.path, n⟩

def unseen (t : LinkTables) (names visiting : List Text) : Nat :=
  ((t.reachable names).filter fun k => !visiting.elem k.text).length

theorem mem_reachable {names : List Text} :
    k ∈ t.reachable names ↔ k.path ∈ t.units.map (·.path) ∧ k.name ∈ names := by
  simp only [reachable, List.mem_flatMap, List.mem_map]
  constructor
  · rintro ⟨u, hu, n, hn, rfl⟩
    exact ⟨⟨u, hu, rfl⟩, hn⟩
  · rintro ⟨⟨u, hu, hp⟩, hn⟩
    exact ⟨u, hu, k.name, hn, by rw [hp]⟩

/-- A search for one of `names` asks about `names` only, if these include all that the units mention. -/
theorem asks_names {names : List Text} (hn : ∀ n ∈ t.allNames, n ∈ names) (hk : k.name ∈ names) :
    (t.inquiry k).Asks t.targets (fun _ source => source ∈ t.units.map (·.path))
      (fun next => next ∈ t.reachable names ∧ k ∈ t.reachable names) (fun _ => True) := by
  refine asks_inquiry ?_ ?_ fun _ _ _ _ => trivial
  · intro u hu _ _
    exact List.mem_map_of_mem (unit?_mem hu).1
  · intro u hu r _ target ht n hmem
    have hpath : k.path ∈ t.units.map (·.path) := unit?_isSome.mp (by simp [hu])
    refine ⟨mem_reachable.mpr ⟨(mem_targets ht).1, ?_⟩, mem_reachable.mpr ⟨hpath, hk⟩⟩
    cases List.mem_cons.mp hmem with
    | inl he => exact he ▸ hk
    | inr hm => exact hn n (names_subset_allNames (unit?_mem hu).1 hm)

theorem unseen_cons_lt {names visiting : List Text} (hk : k ∈ t.reachable names)
    (hv : k.text ∉ visiting) : t.unseen names (k.text :: visiting) < t.unseen names visiting := by
  have hf : ((t.reachable names).filter fun k' => !(k.text :: visiting).elem k'.text) =
      ((t.reachable names).filter fun k' => !visiting.elem k'.text).filter fun k' => k'.text != k.text := by
    rw [List.filter_filter]
    refine List.filter_congr fun k' _ => ?_
    rw [List.elem_cons, bne]
    cases k'.text == k.text <;> rfl
  rw [unseen, hf, unseen]
  refine List.length_filter_lt_length_iff_exists.mpr ⟨k, List.mem_filter.mpr ⟨hk, ?_⟩, by simp⟩
  simpa using hv

theorem unseen_lt_searchBound (t : LinkTables) (name : Text) :
    t.unseen (name :: t.allNames) [] < t.searchBound := by
  have h : t.unseen (name :: t.allNames) [] ≤ (t.reachable (name :: t.allNames)).length :=
    List.length_filter_le _ _
  have hl : (t.reachable (name :: t.allNames)).length = t.units.length * (t.allNames.length + 1) := by
    simp [reachable, List.length_flatMap, List.map_const']
  have hm : t.units.length * (t.allNames.length + 1) ≤ (t.units.length + 1) * (t.allNames.length + 1) :=
    Nat.mul_le_mul_right _ (Nat.le_succ _)
  unfold searchBound
  omega

/-- Any two amounts of fuel above the number of unseen names find the same. -/
theorem search_fuel {names : List Text} (hn : ∀ n ∈ t.allNames, n ∈ names) {fuel fuel' : Nat}
    {visiting : List Text} (hk : k.name ∈ names) (h : t.unseen names visiting < fuel)
    (h' : t.unseen names visiting < fuel') : t.search fuel visiting k = t.search fuel' visiting k := by
  induction fuel generalizing fuel' visiting k with
  | zero => omega
  | succ fuel ih =>
    cases fuel' with
    | zero => omega
    | succ fuel' =>
      rw [search, search]
      split
      · rfl
      next hv =>
      refine Inquiry.eval_congr (asks_names hn hk) (fun _ _ _ => rfl) fun next hnext => ⟨?_, ?_⟩
      · have hlt := unseen_cons_lt hnext.2 (by simpa using hv)
        exact ih (mem_reachable.mp hnext.1).2 (by omega) (by omega)
      · exact fun _ _ => .inr trivial

/-- The fuel of a search that nothing led to is as good as any more. -/
theorem search_of_searchBound_le {fuel : Nat} (h : t.searchBound ≤ fuel) :
    t.search fuel [] k = t.search t.searchBound [] k := by
  have hlt := t.unseen_lt_searchBound k.name
  exact search_fuel (fun n hn => List.mem_cons_of_mem _ hn) List.mem_cons_self (by omega) hlt

end Fuel
end LinkTables
end AnnotationIndex
