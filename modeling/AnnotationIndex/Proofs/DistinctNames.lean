import AnnotationIndex.Proofs.Naming
import Mathlib.Algebra.GroupWithZero.Nat
import Mathlib.Data.List.Induction
import Mathlib.Data.List.Perm.Subperm

/-!
When qualified names are distinct. A plain name that is taken gets a line, and nothing looks whether the name with the
line is taken as well. An index records a symbol for each name, so that it has a record of every symbol exactly if the
names of all files are distinct.
-/
namespace AnnotationIndex
open Text

def lineText (d : Declaration) : Text := (Number.ofInt d.lineSpan.start).toText

def linedName (path : Text) (d : Declaration) : Text := plainName path d ++ unit '@' :: lineText d

def nameAfter (path : Text) (taken : List Text) (d : Declaration) : Text :=
  if taken.elem (plainName path d) then linedName path d else plainName path d

section Names
variable {path : Text} {ds : List Declaration} {d e : Declaration}

theorem nameAfter_of_mem {taken : List Text} (h : plainName path d ∈ taken) :
    nameAfter path taken d = linedName path d :=
  if_pos (List.elem_iff.mpr h)

theorem nameAfter_of_not_mem {taken : List Text} (h : plainName path d ∉ taken) :
    nameAfter path taken d = plainName path d :=
  if_neg (mt List.elem_iff.mp h)

theorem nameAfter_congr {taken taken' : List Text} (h : ∀ n, n ∈ taken ↔ n ∈ taken') :
    nameAfter path taken d = nameAfter path taken' d := by
  unfold nameAfter
  rw [Bool.eq_iff_iff.mpr (List.elem_iff.trans ((h _).trans List.elem_iff.symm))]

theorem qualifyFrom_append (path : Text) (taken : List Text) (ds : List Declaration) (d : Declaration) :
    qualifyFrom path taken (ds ++ [d]) =
      qualifyFrom path taken ds ++ [nameAfter path (qualifyFrom path taken ds ++ taken) d] := by
  induction ds generalizing taken with
  | nil => rfl
  | cons e rest ih =>
    rw [List.cons_append, qualifyFrom, qualifyFrom, ih, List.cons_append]
    refine congrArg (_ :: ·) (congrArg (_ ++ ·) (congrArg ([·]) (nameAfter_congr fun n => ?_)))
    simp only [List.mem_append, List.mem_cons]
    tauto

/-- Each declaration is named after those before it. -/
theorem qualify_append (path : Text) (ds : List Declaration) (d : Declaration) :
    qualify path (ds ++ [d]) = qualify path ds ++ [nameAfter path (qualify path ds) d] := by
  rw [qualify, qualifyFrom_append, List.append_nil]
  rfl

theorem nameAfter_mem_iff {taken : List Text} :
    nameAfter path taken d ∈ taken ↔ plainName path d ∈ taken ∧ linedName path d ∈ taken := by
  by_cases h : plainName path d ∈ taken
  · rw [nameAfter_of_mem h]
    exact ⟨fun hl => ⟨h, hl⟩, And.right⟩
  · rw [nameAfter_of_not_mem h]
    exact ⟨fun hp => absurd hp h, fun hp => absurd hp.1 h⟩

theorem nodup_qualify_append : (qualify path (ds ++ [d])).Nodup ↔
    (qualify path ds).Nodup ∧ (plainName path d ∈ qualify path ds → linedName path d ∉ qualify path ds) := by
  rw [qualify_append, List.nodup_append_comm, List.singleton_append, List.nodup_cons, nameAfter_mem_iff]
  tauto

/-- Names are distinct exactly if no name is taken that gets a line. -/
theorem nodup_qualify (path : Text) (ds : List Declaration) : (qualify path ds).Nodup ↔
    ∀ before d, before ++ [d] <+: ds → plainName path d ∈ qualify path before →
      linedName path d ∉ qualify path before := by
  induction ds using List.reverseRecOn with
  | nil =>
    refine ⟨fun _ before d hp => ?_, fun _ => List.nodup_nil⟩
    exact absurd (List.prefix_nil.mp hp) (by simp)
  | append_singleton ds d ih =>
    rw [nodup_qualify_append, ih]
    constructor
    · rintro ⟨hds, hd⟩ before e hp
      cases List.prefix_concat_iff.mp hp with
      | inl he =>
        obtain ⟨rfl, hlast⟩ := List.append_inj' he rfl
        obtain rfl := List.singleton_inj.mp hlast
        exact hd
      | inr hp => exact hds before e hp
    · exact fun h => ⟨fun before e hp => h before e (hp.trans (List.prefix_append ds [d])), h ds d (List.prefix_refl _)⟩

end Names

def showing (ds : List Declaration) (name : Text) : List Declaration := ds.filter fun d => d.displayName == name

section Shown
variable {path : Text} {ds : List Declaration} {d e : Declaration}

theorem plainName_inj : plainName path d = plainName path e ↔ d.displayName = e.displayName := by
  simp [plainName]

theorem plainName_ne_linedName (hd : unit '@' ∉ d.displayName) : plainName path d ≠ linedName path e := by
  intro h
  have h : d.displayName = e.displayName ++ unit '@' :: lineText e := by simpa [plainName, linedName] using h
  exact hd (h ▸ by simp)

theorem linedName_inj (hd : unit '@' ∉ d.displayName) (he : unit '@' ∉ e.displayName) :
    linedName path d = linedName path e ↔ d.displayName = e.displayName ∧ lineText d = lineText e := by
  refine ⟨fun h => ?_, fun h => by rw [linedName, linedName, plainName_inj.mpr h.1, h.2]⟩
  have h : d.displayName ++ unit '@' :: lineText d = e.displayName ++ unit '@' :: lineText e := by
    simpa [plainName, linedName] using h
  obtain ⟨hn, hl⟩ := eq_of_tails hd he (.inr rfl) (.inr rfl) h
  exact ⟨hn, (List.cons.inj hl).2⟩

theorem showing_append (ds : List Declaration) (d : Declaration) (name : Text) :
    showing (ds ++ [d]) name = showing ds name ++ if d.displayName = name then [d] else [] := by
  simp [showing, List.filter_append, List.filter_cons]

/-- A plain name is taken exactly if it is shown. -/
theorem plainName_mem_qualify (hds : ∀ e ∈ ds, unit '@' ∉ e.displayName) (hd : unit '@' ∉ d.displayName) :
    plainName path d ∈ qualify path ds ↔ showing ds d.displayName ≠ [] := by
  induction ds using List.reverseRecOn with
  | nil => simp [qualify, qualifyFrom, showing]
  | append_singleton ds e ih =>
    have ih := ih fun e he => hds e (List.mem_append_left _ he)
    rw [qualify_append, List.mem_append, List.mem_singleton, ih, showing_append]
    by_cases he : e.displayName = d.displayName
    · refine ⟨fun _ => by simp [he], fun _ => ?_⟩
      rw [← ih]
      by_cases h : plainName path e ∈ qualify path ds
      · exact .inl (plainName_inj.mpr he ▸ h)
      · exact .inr ((plainName_inj.mpr he.symm).trans (nameAfter_of_not_mem h).symm)
    · have hne : plainName path d ≠ nameAfter path (qualify path ds) e := by
        by_cases h : plainName path e ∈ qualify path ds
        · exact nameAfter_of_mem h ▸ plainName_ne_linedName hd
        · exact nameAfter_of_not_mem h ▸ fun hn => he (plainName_inj.mp hn).symm
      simp [he, hne]

/-- A name with a line is taken exactly if a declaration that is not the first of its name begins on the line. -/
theorem linedName_mem_qualify (hds : ∀ e ∈ ds, unit '@' ∉ e.displayName) (hd : unit '@' ∉ d.displayName) :
    linedName path d ∈ qualify path ds ↔ lineText d ∈ (showing ds d.displayName).tail.map lineText := by
  induction ds using List.reverseRecOn with
  | nil => simp [qualify, qualifyFrom, showing]
  | append_singleton ds e ih =>
    have hbefore : ∀ e ∈ ds, unit '@' ∉ e.displayName := fun e he => hds e (List.mem_append_left _ he)
    have he : unit '@' ∉ e.displayName := hds e (List.mem_append_right _ (List.mem_singleton_self e))
    rw [qualify_append, List.mem_append, List.mem_singleton, ih hbefore, showing_append]
    by_cases htaken : plainName path e ∈ qualify path ds
    · have hshown := (plainName_mem_qualify hbefore he).mp htaken
      rw [nameAfter_of_mem htaken, linedName_inj hd he]
      by_cases hn : e.displayName = d.displayName
      · rw [hn] at hshown
        rw [if_pos hn, List.tail_append_of_ne_nil hshown]
        simp [hn]
      · simp [hn, Ne.symm hn]
    · have hshown := mt (plainName_mem_qualify hbefore he).mpr htaken
      have hne : linedName path d ≠ plainName path e := (plainName_ne_linedName he).symm
      rw [nameAfter_of_not_mem htaken]
      by_cases hn : e.displayName = d.displayName
      · rw [hn, not_not] at hshown
        simp [hn, hshown, hne]
      · simp [hn, hne]

theorem nodup_lines_append {name : Text} : ((showing (ds ++ [d]) name).tail.map lineText).Nodup ↔
    ((showing ds name).tail.map lineText).Nodup ∧
      (d.displayName = name → showing ds name ≠ [] → lineText d ∉ (showing ds name).tail.map lineText) := by
  rw [showing_append]
  by_cases hn : d.displayName = name
  · rw [if_pos hn]
    cases showing ds name with
    | nil => simp
    | cons first others =>
      rw [List.cons_append, List.tail_cons, List.map_append, List.nodup_append_comm]
      simp [hn, and_comm]
  · simp [hn]

/-- Names that are shown without an at sign are distinct exactly if the later declarations of each name begin on
different lines. -/
theorem nodup_qualify_iff_lines (hds : ∀ e ∈ ds, unit '@' ∉ e.displayName) : (qualify path ds).Nodup ↔
    ∀ name, ((showing ds name).tail.map lineText).Nodup := by
  induction ds using List.reverseRecOn with
  | nil => simp [qualify, qualifyFrom, showing]
  | append_singleton ds d ih =>
    have hbefore : ∀ e ∈ ds, unit '@' ∉ e.displayName := fun e he => hds e (List.mem_append_left _ he)
    have hd : unit '@' ∉ d.displayName := hds d (List.mem_append_right _ (List.mem_singleton_self d))
    rw [nodup_qualify_append, ih hbefore, plainName_mem_qualify hbefore hd, linedName_mem_qualify hbefore hd]
    simp only [nodup_lines_append, forall_and, forall_eq']

end Shown

section Records

/-- A table has as many entries as were put in exactly if these have distinct keys. -/
theorem Table.length_gather {α : Type} {entries : List (Text × α)} (h : ∀ e ∈ entries, e.1 ≠ droppedKey) :
    (gather entries).length = entries.length ↔ (entries.map (·.1)).Nodup := by
  have hkeys : (gather entries).keys.length = (gather entries).length := List.length_map _
  have hentries : (entries.map (·.1)).length = entries.length := List.length_map _
  rw [← hkeys, ← hentries]
  have hsub : (gather entries).keys.Subperm (entries.map (·.1)) :=
    List.subperm_of_subset (nodup_gather entries) fun k hk => (mem_keys_gather h).mp hk
  constructor
  · intro hl
    exact (hsub.perm_of_length_le (Nat.le_of_eq hl.symm)).nodup_iff.mp (nodup_gather entries)
  · intro hn
    exact ((List.perm_ext_iff_of_nodup (nodup_gather entries) hn).mpr fun k => mem_keys_gather h).length_eq

namespace ProjectIndex
open IndexedFile
variable {fs : List IndexedFile}

theorem names_linkedFiles (fs : List IndexedFile) :
    ((linkedFiles fs).flatMap fun f => f.symbols.map (·.qualifiedName)).Perm
      (fs.flatMap fun f => f.symbols.map (·.qualifiedName)) := by
  rw [linkedFiles, List.flatMap_map]
  simp only [names_relinked]
  exact (List.mergeSort_perm fs _).flatMap_right _

/-- Every symbol of a project has a record of its own exactly if the names that its files list are distinct. -/
theorem length_symbols (h : ∀ f ∈ fs, f.Owned) :
    (ofIndexed fs).symbols.length = (fs.map fun f => f.file.symbols.length).sum ↔
      (fs.flatMap fun f => f.file.symbols).Nodup := by
  have hnamed : ∀ e ∈ ((linkedFiles fs).flatMap (·.symbols)).map SymbolRecord.entry, e.1 ≠ Table.droppedKey := by
    intro e he
    have hq := (names_linkedFiles fs).mem_iff.mp (keys_symbols (linkedFiles fs) ▸ List.mem_map_of_mem he)
    obtain ⟨f, hf, hq⟩ := List.mem_flatMap.mp hq
    obtain ⟨s, hs, hname⟩ := List.mem_map.mp hq
    exact hname ▸ (h f hf).keyed s hs
  have hlisted : (fs.flatMap fun f => f.symbols.map (·.qualifiedName)) = fs.flatMap fun f => f.file.symbols :=
    List.flatMap_congr fun f hf => (h f hf).listed
  have hperm := names_linkedFiles fs
  rw [hlisted, ← keys_symbols] at hperm
  have hsum : (((linkedFiles fs).flatMap (·.symbols)).map SymbolRecord.entry).length =
      (fs.map fun f => f.file.symbols.length).sum := by
    rw [← List.length_flatMap, ← hperm.length_eq]
    exact (List.length_map _).symm
  have hlength : (ofIndexed fs).symbols.length =
      (Table.gather (((linkedFiles fs).flatMap (·.symbols)).map SymbolRecord.entry)).length := by
    rw [ofIndexed_eq, ofLinked, ofRecords, withCallers, Table.mapValues, List.length_map]
  rw [hlength, ← hsum, Table.length_gather hnamed, hperm.nodup_iff]

/-- Where no path has a colon, names of different files differ. -/
theorem nodup_names (h : ∀ f ∈ fs, f.Owned) (hpaths : (fs.map (·.path)).Nodup)
    (hnamed : ∀ f ∈ fs, ∀ s ∈ f.symbols, s.NamedIn f.path) (hcolonless : ∀ f ∈ fs, unit ':' ∉ f.path) :
    (fs.flatMap fun f => f.file.symbols).Nodup ↔ ∀ f ∈ fs, f.file.symbols.Nodup := by
  rw [List.nodup_flatMap]
  refine and_iff_left ((List.pairwise_map.mp hpaths).imp_of_mem fun {f g} hf hg hne q (hq : q ∈ f.file.symbols)
    (hq' : q ∈ g.file.symbols) => hne ?_)
  rw [← (h f hf).listed] at hq
  rw [← (h g hg).listed] at hq'
  obtain ⟨s, hs, rfl⟩ := List.mem_map.mp hq
  obtain ⟨s', hs', hqs⟩ := List.mem_map.mp hq'
  obtain ⟨more, hn, _⟩ := hnamed f hf s hs
  obtain ⟨more', hn', _⟩ := hnamed g hg s' hs'
  exact (eq_of_tails (hcolonless f hf) (hcolonless g hg) (.inr rfl) (.inr rfl) (hn.symm.trans (hqs.symm.trans hn'))).1

/-- Names are distinct unless one is taken that gets a line, which without at signs is a matter of the lines alone. An
index has a record of every symbol exactly if all names are distinct, for which those of each file must be, and need
only be where no path has a colon. -/
theorem names_distinct_iff (rules : IndexRules) (files : List (Text × Text)) (fs : List IndexedFile)
    (hfs : files.mapM (fun (path, text) => ofText rules path text) = .ok fs) :
    (∀ path ds, (qualify path ds).Nodup ↔ ∀ before d, before ++ [d] <+: ds →
        plainName path d ∈ qualify path before → linedName path d ∉ qualify path before) ∧
      (∀ path ds, (∀ d ∈ ds, unit '@' ∉ d.displayName) →
        ((qualify path ds).Nodup ↔ ∀ name, ((showing ds name).tail.map lineText).Nodup)) ∧
      ((ofIndexed fs).symbols.length = (fs.map fun f => f.file.symbols.length).sum ↔
        (fs.flatMap fun f => f.file.symbols).Nodup) ∧
      ((files.map (·.1)).Nodup → (∀ e ∈ files, unit ':' ∉ e.1) →
        ((ofIndexed fs).symbols.length = (fs.map fun f => f.file.symbols.length).sum ↔
          ∀ e ∈ files, (qualify e.1 (outlineOf rules e.1 e.2).1.declarations).Nodup)) := by
  have hmade : ∀ f ∈ fs, ∃ e ∈ files, ofText rules e.1 e.2 = .ok f := fun f hf => mem_of_mapM_ok hfs hf
  have howned : ∀ f ∈ fs, f.Owned := by
    intro f hf
    obtain ⟨e, _, he⟩ := hmade f hf
    exact (owned_ofText he).1
  have hcount := length_symbols howned
  refine ⟨nodup_qualify, fun path ds => nodup_qualify_iff_lines, hcount, fun hpaths hcolonless => ?_⟩
  have hpath : fs.map (·.path) = files.map (·.1) := map_eq_of_mapM_ok hfs fun e f hf => (owned_ofText hf).2.1
  have hlists : fs.map (·.file.symbols) = files.map fun e => qualify e.1 (outlineOf rules e.1 e.2).1.declarations :=
    map_eq_of_mapM_ok hfs fun e f hf => (madeOf_ofText hf).listed
  rw [hcount, nodup_names howned (hpath ▸ hpaths) (fun f hf => ?_) fun f hf => ?_]
  · rw [← List.forall_mem_map (P := List.Nodup), hlists, List.forall_mem_map]
  · obtain ⟨e, _, he⟩ := hmade f hf
    exact (owned_ofText he).2.1 ▸ namedIn_ofText he
  · obtain ⟨e, hmem, he⟩ := hmade f hf
    exact (owned_ofText he).2.1 ▸ hcolonless e hmem

def twoLines : List (Text × Text) := [("a.js", "function f() {}\nfunction f() {}\n")]

theorem names_distinct_twoLines : ∃ fs, twoLines.mapM (fun (path, text) => ofText scriptRules path text) = .ok fs ∧
    (ofIndexed fs).symbols.length = (fs.map fun f => f.file.symbols.length).sum := by
  have hfacts : (twoLines.mapM fun e => ofText scriptRules e.1 e.2).isOk = true ∧
      ((indexAll scriptRules twoLines).flatMap fun f => f.file.symbols).Nodup := by decide +kernel
  have hfs := indexAll_eq hfacts.1
  exact ⟨_, hfs, (names_distinct_iff scriptRules twoLines _ hfs).2.2.1.mpr hfacts.2⟩

def oneLine : List (Text × Text) := [("a.js", "function f() {} function f() {} function f() {}\n")]

/-- The second and the third function have the same name, and one record. -/
theorem length_symbols_oneLine : ∃ fs, oneLine.mapM (fun (path, text) => ofText scriptRules path text) = .ok fs ∧
    (∀ e ∈ oneLine, ¬ (qualify e.1 (outlineOf scriptRules e.1 e.2).1.declarations).Nodup) ∧
    (ofIndexed fs).symbols.length ≠ (fs.map fun f => f.file.symbols.length).sum := by
  have hfacts : (oneLine.mapM fun e => ofText scriptRules e.1 e.2).isOk = true ∧
      (∀ e ∈ oneLine, ¬ (qualify e.1 (outlineOf scriptRules e.1 e.2).1.declarations).Nodup) ∧
      ¬ ((indexAll scriptRules oneLine).flatMap fun f => f.file.symbols).Nodup := by decide +kernel
  obtain ⟨hok, hnames, hall⟩ := hfacts
  have hfs := indexAll_eq hok
  refine ⟨_, hfs, hnames, fun hcount => hall ((length_symbols fun f hf => ?_).mp hcount)⟩
  obtain ⟨e, _, he⟩ := mem_of_mapM_ok hfs hf
  exact (owned_ofText he).1

end ProjectIndex
end Records
end AnnotationIndex
