import AnnotationIndex.Proofs.Domains
import AnnotationIndex.Proofs.Lowering
import AnnotationIndex.Query.Result

/-!
Searching with and without regard to case. Where case does not count, the piece and the text are taken in lower
case, each by itself. So whatever matches exactly still matches, in every index, just if the piece keeps its lower
case in every text.
-/
namespace AnnotationIndex.ProjectIndex
open Text IndexedFile

theorem contains_iff {t p : Text} : contains t p = true ↔ p <:+: t := isSome_find? p t

/-- For a steady piece, a text that has it still has it when case does not count. -/
theorem hits_of_exact {p t : Text} (hp : Steady p) (h : hits true p t = true) : hits false p t = true :=
  contains_iff.mpr (hp.infix_lower (contains_iff.mp h))

theorem any_hits_of_exact {p : Text} {purpose : Option Text} (hp : Steady p) (h : purpose.any (hits true p) = true) :
    purpose.any (hits false p) = true := by
  cases purpose with
  | none => exact h
  | some t => exact hits_of_exact hp h

theorem symbolMatch?_of_exact {p q : Text} {s : SymbolRecord} {m : SearchMatch} (hp : Steady p)
    (h : symbolMatch? true p q s = some m) : symbolMatch? false p q s = some m := by
  simp only [symbolMatch?, Option.ite_none_right_eq_some, Bool.or_eq_true] at h ⊢
  exact ⟨h.1.imp (Or.imp (hits_of_exact hp) (hits_of_exact hp)) (any_hits_of_exact hp), h.2⟩

theorem fileMatch?_of_exact {p path : Text} {f : FileRecord} {m : SearchMatch} (hp : Steady p)
    (h : fileMatch? true p path f = some m) : fileMatch? false p path f = some m := by
  simp only [fileMatch?, Option.ite_none_right_eq_some, Bool.or_eq_true] at h ⊢
  exact ⟨h.1.imp (hits_of_exact hp) (any_hits_of_exact hp), h.2⟩

theorem filterMap_sublist_of_imp {α β : Type} {f g : α → Option β} (h : ∀ a b, f a = some b → g a = some b)
    (xs : List α) : (xs.filterMap f).Sublist (xs.filterMap g) := by
  induction xs with
  | nil => exact .slnil
  | cons a xs ih =>
    cases hf : f a with
    | none =>
      rw [List.filterMap_cons_none hf]
      exact ih.trans (List.Sublist.filterMap g (List.sublist_cons_self a xs))
    | some b =>
      rw [List.filterMap_cons_some hf, List.filterMap_cons_some (h a b hf)]
      exact ih.cons_cons b

theorem searchMatches_sublist {p : Text} (hp : Steady p) (r : ProjectIndex) :
    (r.searchMatches true p).Sublist (r.searchMatches false p) :=
  (filterMap_sublist_of_imp (fun _ _ => symbolMatch?_of_exact hp) _).append
    (filterMap_sublist_of_imp (fun _ _ => fileMatch?_of_exact hp) _)

def ofPath (path : Text) : ProjectIndex :=
  ofRecords
    [(path, {
      path, language := [], lines := 0, module := none, summary := none, purpose := none, owner := none, layer := none
      domains := [], constraint := ⟨.normal, [], []⟩, annotations := [], symbols := [], inline := [], exports := []
      imports := [], importedBy := [], calls := [], diagnostics := none })] [] []

theorem searchMatches_ofPath (caseSensitive : Bool) (p path : Text) :
    (ofPath path).searchMatches caseSensitive p = if hits caseSensitive p path then [.file path none] else [] := by
  simp only [searchMatches, ofPath, ofRecords, withImporters, withCallers, Table.mapValues, sortByKey, List.map_cons,
    List.map_nil, List.mergeSort_singleton, List.mergeSort_nil, List.filterMap_nil, List.nil_append,
    List.filterMap_cons, fileMatch?, Option.any_none, Bool.or_false]
  split <;> simp_all

/-- What is found is what the search gives, unless the index is out of date and its answers are not wanted then. -/
theorem query_search_eq (r : ProjectIndex) (settings : QuerySettings) (changed : List Text) (p : Text)
    (limit : Option Int) :
    r.query settings changed .search p limit =
      if !changed.isEmpty && !settings.bestEffort then .stale changed
      else .found (.search (r.search settings.caseSensitive p (limit.getD settings.defaultLimit))) changed := rfl

theorem search_sublist {p : Text} (hp : Steady p) (r : ProjectIndex) {limit : Int}
    (h : ((r.search false p limit).total : Int) ≤ limit) :
    (r.search true p limit).shown.Sublist (r.search false p limit).shown := by
  have hall : (r.searchMatches false p).length ≤ limit.toNat := by
    simp only [search] at h
    omega
  rw [search, search, List.take_of_length_le hall]
  exact (List.take_sublist ..).trans (searchMatches_sublist hp r)

/-- What an exact search shows is shown in the same order, among other things, when case does not count and nothing
is cut off. -/
def OnlyAdds (p : Text) : Prop :=
  ∀ (r : ProjectIndex) (settings : QuerySettings) (changed : List Text) (limit : Option Int)
    (exact : SearchResult) (stale : List Text),
  r.query { settings with caseSensitive := true } changed .search p limit = .found (.search exact) stale →
  ∃ loose, r.query { settings with caseSensitive := false } changed .search p limit = .found (.search loose) stale ∧
    ((loose.total : Int) ≤ limit.getD settings.defaultLimit → exact.shown.Sublist loose.shown)

theorem OnlyAdds.search_sublist {p : Text} (h : OnlyAdds p) (r : ProjectIndex) (limit : Int)
    (hfit : ((r.search false p limit).total : Int) ≤ limit) :
    (r.search true p limit).shown.Sublist (r.search false p limit).shown := by
  obtain ⟨loose, hloose, hsub⟩ := h r ⟨false, true, limit⟩ [] none _ _ rfl
  rw [query_search_eq, List.isEmpty_nil, Bool.not_true, Bool.false_and, if_neg Bool.false_ne_true] at hloose
  cases hloose
  exact hsub hfit

/-- Leaving case out of account only adds matches for the pieces whose lower case is found wherever they are found,
and for no others. -/
theorem onlyAdds_iff (p : Text) : OnlyAdds p ↔ Steady p := by
  constructor
  · intro h
    refine steady_iff.mpr fun t ht => ?_
    by_contra hno
    have hexact : hits true p t = true := contains_iff.mpr ht
    have hloose : hits false p t = false := Bool.eq_false_iff.mpr fun hh => hno (contains_iff.mp hh)
    have hsub := h.search_sublist (ofPath t) 1
    simp [search, searchMatches_ofPath, hexact, hloose] at hsub
  · intro hp r settings changed limit exact stale h
    rw [query_search_eq] at h ⊢
    split at h
    · cases h
    · next hfresh =>
      rw [if_neg hfresh]
      cases h
      exact ⟨_, rfl, search_sublist hp r⟩

def capitals : List (Text × Text) := [("a.ts", "function ΑΣ() {}\n")]

/-- In lower case the sigma of the name has its final form, and the sigma that is searched for has not. -/
theorem search_capitals : ¬ OnlyAdds "Σ" ∧ ∃ r, ofFiles scriptRules capitals = .ok r ∧
    r.search true "Σ" 50 = ⟨[.symbol "a.ts:ΑΣ" "ΑΣ" "a.ts" none], 1, false⟩ ∧
    r.search false "Σ" 50 = ⟨[], 0, false⟩ := by
  have hfacts :
      let fs := indexAll scriptRules capitals
      let r := ofLinked (fs.map (relinked ⟨fs.map linkUnit⟩ fun _ => true))
      (capitals.mapM fun e => ofText scriptRules e.1 e.2).isOk = true ∧
        fs.Pairwise (fun f g => IndexedFile.le f g = true) ∧
        (r.search true "Σ" 50 = ⟨[.symbol "a.ts:ΑΣ" "ΑΣ" "a.ts" none], 1, false⟩ ∧
          r.search false "Σ" 50 = ⟨[], 0, false⟩) := by
    decide +kernel
  obtain ⟨hok, hsorted, hexact, hloose⟩ := hfacts
  refine ⟨fun h => ?_, _, ofFiles_eq_of_sorted hok hsorted, hexact, hloose⟩
  have hsub := h.search_sublist _ 50 (by rw [hloose]; decide)
  rw [hexact, hloose] at hsub
  simp at hsub

end AnnotationIndex.ProjectIndex
