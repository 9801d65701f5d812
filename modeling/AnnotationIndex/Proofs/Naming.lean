import AnnotationIndex.Proofs.Restore

/-!
Qualified names. Where no path has a colon and no name an at sign, a qualified name tells the file of a symbol and the
name under which the file knows it.
-/
namespace AnnotationIndex
open Text

def Tail (u : UInt16) (t : Text) : Prop := t = [] ∨ t.head? = some u

theorem takeWhile_tail {u : UInt16} {name tail : Text} (hname : u ∉ name) (htail : Tail u tail) :
    (name ++ tail).takeWhile (· != u) = name := by
  have hfirst : tail.takeWhile (· != u) = [] := by
    cases htail with
    | inl h => rw [h, List.takeWhile_nil]
    | inr h =>
      cases tail with
      | nil => rfl
      | cons v rest =>
        obtain rfl : v = u := Option.some.inj h
        simp
  rw [List.takeWhile_append_of_pos, hfirst, List.append_nil]
  intro v hv
  have hne : v ≠ u := fun he => hname (he ▸ hv)
  simpa using hne

/-- A text is cut in one way only before the first occurrence of a unit. -/
theorem eq_of_tails {u : UInt16} {name name' tail tail' : Text} (hname : u ∉ name) (hname' : u ∉ name')
    (htail : Tail u tail) (htail' : Tail u tail') (h : name ++ tail = name' ++ tail') :
    name = name' ∧ tail = tail' := by
  have he : name = name' := by rw [← takeWhile_tail hname htail, h, takeWhile_tail hname' htail']
  exact ⟨he, List.append_cancel_left (he ▸ h)⟩

def SymbolRecord.NamedIn (path : Text) (s : SymbolRecord) : Prop :=
  ∃ more, s.qualifiedName = path ++ unit ':' :: (s.displayName ++ more) ∧ Tail (unit '@') more

theorem name_of_mem_qualifyFrom {path : Text} {taken : List Text} {ds : List Declaration}
    {records : List (List AnnotationRecord)} {e : Declaration × Text × List AnnotationRecord}
    (h : e ∈ ds.zip ((qualifyFrom path taken ds).zip records)) :
    ∃ more, e.2.1 = plainName path e.1 ++ more ∧ Tail (unit '@') more := by
  induction ds generalizing taken records with
  | nil => exact absurd h List.not_mem_nil
  | cons d rest ih =>
    cases records with
    | nil => simp at h
    | cons r records =>
      rw [qualifyFrom, List.zip_cons_cons, List.zip_cons_cons, List.mem_cons] at h
      cases h with
      | inl h =>
        subst h
        dsimp only
        split
        · exact ⟨_, rfl, .inr rfl⟩
        · exact ⟨[], (List.append_nil _).symm, .inl rfl⟩
      | inr h => exact ih h

theorem displayName_of_ofDeclaration {path q : Text} {d : Declaration} {records : List AnnotationRecord}
    {s : SymbolRecord} (h : SymbolRecord.ofDeclaration path d q records = .ok s) : s.displayName = d.displayName := by
  obtain ⟨m, -, rfl⟩ := SymbolRecord.eq_of_ofDeclaration h
  unfold SymbolRecord.displayName Declaration.displayName
  cases hc : d.container with
  | none => rfl
  | some c => cases c <;> rfl

namespace IndexedFile

theorem namedIn_ofText {rules : IndexRules} {path text : Text} {f : IndexedFile} (h : ofText rules path text = .ok f) :
    ∀ s ∈ f.symbols, s.NamedIn path := by
  intro s hs
  obtain ⟨⟨d, q, records⟩, hmem, hd⟩ := mem_of_mapM_ok (madeOf_ofText h).symbols hs
  obtain ⟨more, hq, hmore⟩ := name_of_mem_qualifyFrom hmem
  refine ⟨more, ?_, hmore⟩
  have hq : q = plainName path d ++ more := hq
  rw [(ofDeclaration_ok hd).1, displayName_of_ofDeclaration hd, hq, plainName]
  simp

end IndexedFile

namespace ProjectIndex
open IndexedFile

/-- Files of which a qualified name tells file and symbol: no path has a colon, no name an at sign, and no file is named
like the target outside the project. -/
structure Legible (fs : List IndexedFile) : Prop where
  colonless : ∀ f ∈ fs, unit ':' ∉ f.path
  inside : ∀ f ∈ fs, f.path ≠ external
  names : ∀ f ∈ fs, ∀ s ∈ f.symbols, unit '@' ∉ s.displayName
  rows : ∀ f ∈ fs, ∀ row ∈ f.file.exports, unit '@' ∉ row.binding.getD row.name

instance (fs : List IndexedFile) : Decidable (Legible fs) :=
  decidable_of_iff ((∀ f ∈ fs, unit ':' ∉ f.path) ∧ (∀ f ∈ fs, f.path ≠ external) ∧
      (∀ f ∈ fs, ∀ s ∈ f.symbols, unit '@' ∉ s.displayName) ∧
      ∀ f ∈ fs, ∀ row ∈ f.file.exports, unit '@' ∉ row.binding.getD row.name)
    ⟨fun h => ⟨h.1, h.2.1, h.2.2.1, h.2.2.2⟩, fun h => ⟨h.colonless, h.inside, h.names, h.rows⟩⟩

namespace Legible
variable {fs : List IndexedFile} {f g : IndexedFile} {s s' : SymbolRecord}

/-- The file and the name of a symbol are read off its qualified name. -/
theorem read {path name more : Text} (h : Legible fs) (hf : f ∈ fs) (hs : s ∈ f.symbols) (hnamed : s.NamedIn f.path)
    (hpath : unit ':' ∉ path) (hname : unit '@' ∉ name) (hmore : Tail (unit '@') more)
    (hq : s.qualifiedName = path ++ unit ':' :: (name ++ more)) : f.path = path ∧ s.displayName = name := by
  obtain ⟨more', hq', hmore'⟩ := hnamed
  obtain ⟨hp, hrest⟩ := eq_of_tails (h.colonless f hf) hpath (.inr rfl) (.inr rfl) (hq'.symm.trans hq)
  exact ⟨hp, (eq_of_tails (h.names f hf s hs) hname hmore' hmore (List.cons.inj hrest).2).1⟩

theorem namesAgree (h : Legible fs) (hnamed : ∀ f ∈ fs, ∀ s ∈ f.symbols, s.NamedIn f.path) : NamesAgree fs := by
  intro f hf g hg s hs s' hs' hq
  obtain ⟨more, hq', hmore⟩ := hnamed g hg s' hs'
  exact (h.read hf hs (hnamed f hf s hs) (h.colonless g hg) (h.names g hg s' hs') hmore (hq.trans hq')).2

theorem namesApart (h : Legible fs) (hi : Indexed fs) (hnamed : ∀ f ∈ fs, ∀ s ∈ f.symbols, s.NamedIn f.path) :
    (tablesOf fs).NamesApart := by
  have hnodup := List.pairwise_map.mp (nodup_sorted hi.paths)
  refine List.pairwise_map.mpr (hnodup.imp_of_mem fun {f g} hf hg hne q hq hq' => hne ?_)
  obtain ⟨s, hs, rfl⟩ := List.mem_map.mp hq
  obtain ⟨s', hs', hqs⟩ := List.mem_map.mp hq'
  have hf := List.mem_mergeSort.mp hf
  have hg := List.mem_mergeSort.mp hg
  obtain ⟨more, hq', hmore⟩ := hnamed g hg s' hs'
  exact (h.read hf hs (hnamed f hf s hs) (h.colonless g hg) (h.names g hg s' hs') hmore (hqs.symm.trans hq')).1

/-- A recorded name of a file is that of a symbol which the file knows by this name. -/
theorem symbolNamed_of_listed (h : Legible fs) (hi : Indexed fs)
    (hnamed : ∀ f ∈ fs, ∀ s ∈ f.symbols, s.NamedIn f.path) (hf : f ∈ fs) {name : Text} (hname : unit '@' ∉ name)
    (hg : g ∈ fs) (hs : s ∈ g.symbols) (hq : s.qualifiedName = f.path ++ unit ':' :: name) :
    (f.linkUnit.symbolNamed name).isSome = true := by
  have hq : s.qualifiedName = f.path ++ unit ':' :: (name ++ []) := by rw [hq, List.append_nil]
  obtain ⟨hpath, hshown⟩ := h.read hg hs (hnamed g hg s hs) (h.colonless f hf) hname (.inl rfl) hq
  obtain rfl := List.inj_on_of_nodup_map hi.paths hg hf hpath
  rw [LinkUnit.symbolNamed, Option.isSome_map, List.find?_isSome]
  exact ⟨s, hs, beq_iff_eq.mpr hshown⟩

end Legible
end ProjectIndex
end AnnotationIndex
