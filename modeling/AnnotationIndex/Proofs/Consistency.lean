import AnnotationIndex.Proofs.Attribution
import AnnotationIndex.Proofs.Recorded
import AnnotationIndex.Proofs.Sight

/-!
The index of a full build is consistent: its files and symbols refer to each other, every edge ends in the project or
outside of it, and the reverse edges are those of the forward edges.
-/
namespace AnnotationIndex
open Text

/-- The markers of a file stand at symbols of the file. -/
theorem owner_of_inlineMarkers {names : List Text} {inline : List InlineRecord} {m : InlineMarker}
    (hm : m ∈ IndexedFile.inlineMarkers names inline) {q : Text} (hq : m.symbol = some q) : q ∈ names := by
  obtain ⟨i, _, rfl⟩ := List.mem_map.mp (List.mem_mergeSort.mp hm)
  obtain ⟨n, _, hn⟩ := Option.bind_eq_some_iff.mp (Option.filter_eq_some_iff.mp hq).1
  exact List.mem_of_getElem? hn

theorem IndexedFile.owner_ofText {rules : IndexRules} {path text : Text} {f : IndexedFile}
    (h : ofText rules path text = .ok f) {m : InlineMarker} (hm : m ∈ f.file.inline) {q : Text}
    (hq : m.symbol = some q) : q ∈ f.file.symbols := by
  rw [(madeOf_ofText h).inline] at hm
  rw [(madeOf_ofText h).listed]
  exact owner_of_inlineMarkers hm hq

namespace ProjectIndex
open IndexedFile

/-- Every name and path of the index stands for a record of it, and every edge has its reverse. Where several files list
one name, it stands for a symbol of the greatest of them. -/
structure Consistent (r : ProjectIndex) : Prop where
  listed : ∀ p f, Table.get? r.files p = some f → ∀ q ∈ f.symbols,
    ∃ s, Table.get? r.symbols q = some s ∧ s.qualifiedName = q ∧ Text.le p s.file = true
  filed : ∀ q s, Table.get? r.symbols q = some s →
    s.qualifiedName = q ∧ ∃ f, Table.get? r.files s.file = some f ∧ q ∈ f.symbols
  targets : ∀ p f, Table.get? r.files p = some f → ∀ e ∈ f.imports,
    e.target = external ∨ e.target ∈ r.files.keys ∧ e.target ≠ p
  names : ∀ p f, Table.get? r.files p = some f → ∀ e ∈ f.imports, ∀ n ∈ e.names,
    n.symbol = external ∨ n.symbol ∈ r.symbols.keys
  callees : ∀ q s, Table.get? r.symbols q = some s → ∀ q' ∈ s.callees, q' = external ∨ q' ∈ r.symbols.keys
  inline : ∀ p f, Table.get? r.files p = some f → ∀ m ∈ f.inline, ∀ q ∈ m.symbol, q ∈ r.symbols.keys
  calls : ∀ p f, Table.get? r.files p = some f → ∀ c ∈ f.calls, ∀ q ∈ c.caller, q ∈ r.symbols.keys
  callers : ∀ q s, Table.get? r.symbols q = some s → ∀ q', q' ∈ s.callers ↔
    ∃ s', Table.get? r.symbols q' = some s' ∧ q ∈ s'.callees
  importers : ∀ p f, Table.get? r.files p = some f → ∀ p', p' ∈ f.importedBy ↔
    ∃ f', Table.get? r.files p' = some f' ∧ ∃ e ∈ f'.imports, e.target = p
  hashes : r.contentHashes.keys = r.files.keys
  ordered : (∀ p f, Table.get? r.files p = some f → f.importedBy.Pairwise fun p q => lt p q = true) ∧
    ∀ q s, Table.get? r.symbols q = some s →
      (s.callers.Pairwise fun p q => lt p q = true) ∧ s.callees.Pairwise fun p q => lt p q = true

section Reverse
variable {files : Table FileRecord} {symbols : Table SymbolRecord} {hashes : Table Text}

theorem pairwise_importersOf (files : Table FileRecord) (path : Text) :
    (AnnotationIndex.importersOf files path).Pairwise fun p q => lt p q = true := by
  unfold AnnotationIndex.importersOf
  split
  · exact List.Pairwise.nil
  · exact pairwise_sortedSet _

theorem pairwise_callersOf (symbols : Table SymbolRecord) (name : Text) :
    (AnnotationIndex.callersOf symbols name).Pairwise fun p q => lt p q = true := by
  unfold AnnotationIndex.callersOf
  split
  · exact List.Pairwise.nil
  · exact pairwise_sortedSet _

/-- The reverse edges of a file lead back to the files with an edge to it. -/
theorem importedBy_ofRecords (hn : files.keys.Nodup) (hk : ∀ p f, Table.get? files p = some f → f.path = p)
    {p : Text} {f : FileRecord} (hp : p ≠ external)
    (hf : Table.get? (ofRecords files symbols hashes).files p = some f) :
    (f.importedBy.Pairwise fun p q => lt p q = true) ∧ ∀ p', p' ∈ f.importedBy ↔
      ∃ f', Table.get? (ofRecords files symbols hashes).files p' = some f' ∧ ∃ e ∈ f'.imports, e.target = p := by
  have hget : ∀ p, Table.get? (ofRecords files symbols hashes).files p =
      (Table.get? files p).map fun f => { f with importedBy := AnnotationIndex.importersOf files f.path } :=
    fun p => by rw [ofRecords, withImporters, Table.get?_mapValues]
  obtain ⟨f₀, hf₀, rfl⟩ := Option.map_eq_some_iff.mp ((hget p).symm.trans hf)
  refine ⟨pairwise_importersOf _ _, fun p' => ?_⟩
  show p' ∈ AnnotationIndex.importersOf files f₀.path ↔ _
  rw [hk p f₀ hf₀, AnnotationIndex.importersOf, if_neg (by simpa using hp), Table.mem_names hn hk, hget]
  simp

theorem callers_ofRecords (hn : symbols.keys.Nodup)
    (hk : ∀ q s, Table.get? symbols q = some s → s.qualifiedName = q) {q : Text} {s : SymbolRecord}
    (hq : q ≠ external) (hs : Table.get? (ofRecords files symbols hashes).symbols q = some s) :
    (s.callers.Pairwise fun p q => lt p q = true) ∧ ∀ q', q' ∈ s.callers ↔
      ∃ s', Table.get? (ofRecords files symbols hashes).symbols q' = some s' ∧ q ∈ s'.callees := by
  have hget : ∀ q, Table.get? (ofRecords files symbols hashes).symbols q =
      (Table.get? symbols q).map fun s => { s with callers := AnnotationIndex.callersOf symbols s.qualifiedName } :=
    fun q => by rw [ofRecords, withCallers, Table.get?_mapValues]
  obtain ⟨s₀, hs₀, rfl⟩ := Option.map_eq_some_iff.mp ((hget q).symm.trans hs)
  refine ⟨pairwise_callersOf _ _, fun q' => ?_⟩
  show q' ∈ AnnotationIndex.callersOf symbols s₀.qualifiedName ↔ _
  rw [hk q s₀ hs₀, AnnotationIndex.callersOf, if_neg (by simpa using hq), Table.mem_names hn hk, hget]
  simp

end Reverse

/-- The last of sorted files that satisfies a test is the greatest. -/
theorem le_of_find?_reverse {fs : List IndexedFile} (hsorted : fs.Pairwise fun f g => IndexedFile.le f g = true)
    {test : IndexedFile → Bool} {g : IndexedFile} (hg : fs.reverse.find? test = some g) {f : IndexedFile} (hf : f ∈ fs)
    (htest : test f = true) : Text.le f.path g.path = true := by
  obtain ⟨_, before, after, hsplit, hbefore⟩ := List.find?_eq_some_iff_append.mp hg
  have hreverse : fs.reverse.Pairwise fun g f => IndexedFile.le f g = true := List.pairwise_reverse.mpr hsorted
  have hf : f ∈ before ++ g :: after := hsplit ▸ List.mem_reverse.mpr hf
  rw [hsplit, List.pairwise_append] at hreverse
  obtain hf | rfl | hf : f ∈ before ∨ f = g ∨ f ∈ after := by simpa using hf
  · exact absurd htest (by simpa using hbefore f hf)
  · exact (Bool.or_self _).symm.trans (Text.le_total f.path f.path)
  · exact List.rel_of_pairwise_cons hreverse.2.1 hf

theorem symbol?_linkedTables (fs : List IndexedFile) (q : Text) : (linkedTables fs).symbol? q =
    ((fs.mergeSort IndexedFile.le).reverse.find? fun f => decide (q ∈ f.linkUnit.listed)).bind fun f =>
      (f.linkUnit.symbol? q).map (withCallees ((tablesOf fs).link f.linkUnit)) := by
  let linked := fun f => (relinked (tablesOf fs) (fun _ => true) f).linkUnit
  have hkept : ∀ f ∈ fs.mergeSort IndexedFile.le, (linked f).listed = f.linkUnit.listed :=
    fun f _ => listed_relinked _ _ f
  have hlisted := LinkTables.symbol?_map_of_listed hkept q
  simp only [linked, symbol?_relinked, if_true] at hlisted
  rw [linkedTables, linkedFiles, List.map_map]
  exact hlisted

section Records
variable {fs : List IndexedFile} (h : Indexed fs)
include h

/-- What the index records under a path is the file of that path with the imports that linking found. -/
theorem exists_of_file {p : Text} {f : FileRecord} (hf : Table.get? (ofIndexed fs).files p = some f) :
    ∃ g ∈ fs, g.path = p ∧ f.forward = { g.file.bare with imports := ((tablesOf fs).link g.linkUnit).imports } := by
  obtain ⟨g, hg, rfl⟩ := List.mem_map.mp ((keys_ofIndexed h).mem_iff.mp (Table.get?_isSome.mp (by rw [hf]; rfl)))
  obtain ⟨f', hf', hforward⟩ := file_ofIndexed h hg
  obtain rfl := Option.some.inj (hf'.symm.trans hf)
  exact ⟨g, hg, rfl, hforward.trans (forward_relinked _ _ g)⟩

theorem exists_file {g : IndexedFile} (hg : g ∈ fs) :
    ∃ f, Table.get? (ofIndexed fs).files g.path = some f ∧ f.symbols = g.symbols.map (·.qualifiedName) := by
  obtain ⟨f, hf, hforward⟩ := file_ofIndexed h hg
  have hsymbols : f.symbols = g.file.symbols := congrArg (·.symbols) (hforward.trans (forward_relinked _ _ g))
  exact ⟨f, hf, hsymbols.trans (h.owned g hg).listed.symm⟩

/-- What the index records under a name is a symbol of the greatest file that lists it, with the callees that linking
found. -/
theorem exists_of_symbol {q : Text} {s : SymbolRecord} (hs : Table.get? (ofIndexed fs).symbols q = some s) :
    ∃ g ∈ fs, ∃ s₀ ∈ g.symbols, s₀.qualifiedName = q ∧
      s.forward = (withCallees ((tablesOf fs).link g.linkUnit) s₀).forward ∧
      ∀ g' ∈ fs, q ∈ g'.linkUnit.listed → Text.le g'.path g.path = true := by
  have hforward := symbol_ofIndexed h q
  rw [hs, symbol?_linkedTables, Option.map_some, eq_comm, Option.map_eq_some_iff] at hforward
  obtain ⟨s', hs', hforward⟩ := hforward
  obtain ⟨g, hfind, hs'⟩ := Option.bind_eq_some_iff.mp hs'
  obtain ⟨s₀, hs₀, rfl⟩ := Option.map_eq_some_iff.mp hs'
  obtain ⟨hmem, hname⟩ := LinkUnit.symbol?_mem hs₀
  refine ⟨g, List.mem_mergeSort.mp (List.mem_reverse.mp (List.mem_of_find?_eq_some hfind)), s₀, hmem, hname,
    hforward.symm, fun g' hg' hq => ?_⟩
  exact le_of_find?_reverse (List.pairwise_mergeSort (fun a b c => Text.le_trans a.path b.path c.path)
    (fun a b => Text.le_total a.path b.path) fs) hfind (List.mem_mergeSort.mpr hg') (decide_eq_true hq)

theorem importedBy_ofIndexed {p : Text} {f : FileRecord} (hp : p ≠ external)
    (hf : Table.get? (ofIndexed fs).files p = some f) :
    (f.importedBy.Pairwise fun p q => lt p q = true) ∧ ∀ p', p' ∈ f.importedBy ↔
      ∃ f', Table.get? (ofIndexed fs).files p' = some f' ∧ ∃ e ∈ f'.imports, e.target = p := by
  have hk : ∀ p f, Table.get? (Table.gather ((linkedFiles fs).map fileEntry)) p = some f → f.path = p := by
    intro p f hf
    obtain ⟨g, hg, he⟩ := List.mem_map.mp (Table.mem_of_gather (Table.mem_of_get? hf))
    obtain ⟨rfl, rfl⟩ := Prod.mk.inj he
    obtain ⟨g₀, hg₀, rfl⟩ := mem_linkedFiles.mp hg
    rw [file_path_relinked, path_relinked, (h.owned g₀ hg₀).path]
  rw [ofIndexed_eq, ofLinked] at hf ⊢
  exact importedBy_ofRecords (Table.nodup_gather _) hk hp hf

omit h in
theorem callers_ofIndexed {q : Text} {s : SymbolRecord} (hq : q ≠ external)
    (hs : Table.get? (ofIndexed fs).symbols q = some s) :
    (s.callers.Pairwise fun p q => lt p q = true) ∧ ∀ q', q' ∈ s.callers ↔
      ∃ s', Table.get? (ofIndexed fs).symbols q' = some s' ∧ q ∈ s'.callees := by
  have hk : ∀ q s, Table.get? (Table.gather (((linkedFiles fs).flatMap (·.symbols)).map SymbolRecord.entry)) q =
      some s → s.qualifiedName = q := by
    intro q s hs
    obtain ⟨s', _, he⟩ := List.mem_map.mp (Table.mem_of_gather (Table.mem_of_get? hs))
    obtain ⟨rfl, rfl⟩ := Prod.mk.inj he
    rfl
  rw [ofIndexed_eq, ofLinked] at hs ⊢
  exact callers_ofRecords (Table.nodup_gather _) hk hq hs

theorem callees_ofIndexed {q : Text} {s : SymbolRecord} (hs : Table.get? (ofIndexed fs).symbols q = some s) :
    (s.callees.Pairwise fun p q => lt p q = true) ∧ ∀ q' ∈ s.callees, (tablesOf fs).Attributable q' := by
  obtain ⟨g, _, s₀, _, _, hforward, _⟩ := exists_of_symbol h hs
  have hcallees : s.callees = (((tablesOf fs).link g.linkUnit).callees.lookup s₀.qualifiedName).getD [] :=
    congrArg (·.callees) hforward
  rw [hcallees]
  cases hl : ((tablesOf fs).link g.linkUnit).callees.lookup s₀.qualifiedName with
  | none => exact ⟨List.Pairwise.nil, fun _ hq => absurd hq List.not_mem_nil⟩
  | some callees => exact LinkTables.callees_link hl

theorem key_of_listed {g : IndexedFile} (hg : g ∈ fs) {q : Text} (hq : q ∈ g.file.symbols) :
    q ∈ (ofIndexed fs).symbols.keys := by
  rw [← (h.owned g hg).listed] at hq
  obtain ⟨s, hs, rfl⟩ := List.mem_map.mp hq
  obtain ⟨s', hs', _⟩ := recorded h hg hs
  exact Table.get?_isSome.mp (by rw [hs']; rfl)

theorem key_of_attributable {q : Text} (hq : (tablesOf fs).Attributable q) :
    q = external ∨ q ∈ (ofIndexed fs).symbols.keys := by
  refine hq.imp_right fun hq => ?_
  obtain ⟨p, u, _, hu, hq⟩ := hq
  obtain ⟨g, hg, rfl, _⟩ := exists_of_unit? hu
  exact key_of_listed h hg ((h.owned g hg).listed ▸ hq)

/-- The index of files that are indexed as they should be is consistent. -/
theorem consistent_ofIndexed (hinside : ∀ f ∈ fs, f.path ≠ external)
    (hnamed : ∀ f ∈ fs, ∀ s ∈ f.symbols, s.NamedIn f.path)
    (hinline : ∀ f ∈ fs, ∀ m ∈ f.file.inline, ∀ q ∈ m.symbol, q ∈ f.file.symbols) : Consistent (ofIndexed fs) := by
  have hsymbol : ∀ q s, Table.get? (ofIndexed fs).symbols q = some s → q ≠ external := by
    rintro q s hs rfl
    obtain ⟨g, hg, s₀, hs₀, hq, _⟩ := exists_of_symbol h hs
    obtain ⟨more, hname, _⟩ := hnamed g hg s₀ hs₀
    have hcolon : unit ':' ∈ external := by
      rw [← hq, hname]
      simp
    exact absurd hcolon (by decide)
  have hfile : ∀ p f, Table.get? (ofIndexed fs).files p = some f → p ≠ external := by
    intro p f hf
    obtain ⟨g, hg, rfl, _⟩ := exists_of_file h hf
    exact hinside g hg
  have hkeys : ∀ p, p ∈ (tablesOf fs).units.map (·.path) → p ∈ (ofIndexed fs).files.keys := by
    intro p hp
    rw [tablesOf, List.map_map] at hp
    obtain ⟨g, hg, rfl⟩ := List.mem_map.mp hp
    exact (keys_ofIndexed h).mem_iff.mpr (List.mem_map_of_mem (List.mem_mergeSort.mp hg))
  constructor
  case listed =>
    intro p f hf q hq
    obtain ⟨g, hg, rfl, hforward⟩ := exists_of_file h hf
    have hsymbols : f.symbols = g.file.symbols := congrArg (·.symbols) hforward
    rw [hsymbols] at hq
    obtain ⟨s, hs⟩ := Option.isSome_iff_exists.mp (Table.get?_isSome.mpr (key_of_listed h hg hq))
    obtain ⟨g', hg', s₀, hs₀, rfl, hforward, hgreatest⟩ := exists_of_symbol h hs
    have hname : s.qualifiedName = s₀.qualifiedName := congrArg (·.qualifiedName) hforward
    have hsource : s.file = s₀.file := congrArg (·.file) hforward
    rw [← (h.owned g hg).listed] at hq
    refine ⟨s, hs, hname, ?_⟩
    rw [hsource, (h.owned g' hg').files s₀ hs₀]
    exact hgreatest g hg hq
  case filed =>
    intro q s hs
    obtain ⟨g, hg, s₀, hs₀, rfl, hforward, _⟩ := exists_of_symbol h hs
    have hname : s.qualifiedName = s₀.qualifiedName := congrArg (·.qualifiedName) hforward
    have hsource : s.file = s₀.file := congrArg (·.file) hforward
    obtain ⟨f, hf, hsymbols⟩ := exists_file h hg
    refine ⟨hname, f, ?_, hsymbols ▸ List.mem_map_of_mem hs₀⟩
    rw [hsource, (h.owned g hg).files s₀ hs₀, hf]
  case targets =>
    intro p f hf e he
    obtain ⟨g, hg, rfl, hforward⟩ := exists_of_file h hf
    have himports : f.imports = ((tablesOf fs).link g.linkUnit).imports := congrArg (·.imports) hforward
    exact (LinkTables.entry_link (himports ▸ he)).1.imp_right fun ht => ⟨hkeys _ ht.1, ht.2⟩
  case names =>
    intro p f hf e he n hn
    obtain ⟨g, hg, rfl, hforward⟩ := exists_of_file h hf
    have himports : f.imports = ((tablesOf fs).link g.linkUnit).imports := congrArg (·.imports) hforward
    exact key_of_attributable h ((LinkTables.entry_link (himports ▸ he)).2 n hn)
  case callees => exact fun q s hs q' hq' => key_of_attributable h ((callees_ofIndexed h hs).2 q' hq')
  case inline =>
    intro p f hf m hm q hq
    obtain ⟨g, hg, rfl, hforward⟩ := exists_of_file h hf
    have hmarkers : f.inline = g.file.inline := congrArg (·.inline) hforward
    exact key_of_listed h hg (hinline g hg m (hmarkers ▸ hm) q hq)
  case calls =>
    intro p f hf c hc q hq
    obtain ⟨g, hg, rfl, hforward⟩ := exists_of_file h hf
    have hcalls : f.calls = g.file.calls := congrArg (·.calls) hforward
    exact key_of_listed h hg ((h.owned g hg).listed ▸ (h.owned g hg).callers c (hcalls ▸ hc) q hq)
  case callers => exact fun q s hs => (callers_ofIndexed (hsymbol q s hs) hs).2
  case importers => exact fun p f hf => (importedBy_ofIndexed h (hfile p f hf) hf).2
  case hashes => exact keys_hashes fs _
  case ordered =>
    refine ⟨fun p f hf => (importedBy_ofIndexed h (hfile p f hf) hf).1, fun q s hs => ⟨?_, ?_⟩⟩
    · exact (callers_ofIndexed (hsymbol q s hs) hs).1
    · exact (callees_ofIndexed h hs).1

end Records

/-- The index of a project is consistent, if no file has the name of the target outside the project or the name that no
table has as a key. -/
theorem consistent_ofFiles (rules : IndexRules) (files : List (Text × Text)) (hp : (files.map (·.1)).Nodup)
    (hinside : ∀ e ∈ files, e.1 ≠ external) (hk : ∀ e ∈ files, e.1 ≠ Table.droppedKey) (r : ProjectIndex)
    (hr : ofFiles rules files = .ok r) : Consistent r := by
  obtain ⟨fs, hfs, rfl⟩ := exists_indexed hr
  have hmade : ∀ f ∈ fs, ∃ e ∈ files, ofText rules f.path e.2 = .ok f ∧ e.1 = f.path := by
    intro f hf
    obtain ⟨e, he, hok⟩ := mem_of_mapM_ok hfs hf
    have hpath : f.path = e.1 := (owned_ofText hok).2.1
    exact ⟨e, he, hpath ▸ hok, hpath.symm⟩
  refine consistent_ofIndexed (indexed_of_mapM hp hk hfs) (fun f hf => ?_) (fun f hf => ?_) fun f hf => ?_
  · obtain ⟨e, he, _, hpath⟩ := hmade f hf
    exact hpath ▸ hinside e he
  · obtain ⟨e, _, hok, _⟩ := hmade f hf
    exact namedIn_ofText hok
  · obtain ⟨e, _, hok, _⟩ := hmade f hf
    exact fun m hm q hq => owner_ofText hok hm hq

theorem consistent_twoFiles : ∃ r, ofFiles scriptRules twoFiles = .ok r ∧ Consistent r := by
  have hok : (twoFiles.mapM fun e => ofText scriptRules e.1 e.2).isOk = true := by decide +kernel
  have hr : ofFiles scriptRules twoFiles = .ok (ofIndexed (indexAll scriptRules twoFiles)) := by
    rw [ofFiles, indexAll_eq hok]
    rfl
  exact ⟨_, hr, consistent_ofFiles scriptRules twoFiles (by decide) (by decide) (by decide) _ hr⟩

/-- Of two files that list one name, the index has the symbol of the second. -/
theorem file_of_sharedName : (sharedName.map (·.1)).Nodup ∧
    (∀ e ∈ sharedName, e.1 ≠ external ∧ e.1 ≠ Table.droppedKey) ∧
    ∃ r, ofFiles scriptRules sharedName = .ok r ∧ ∃ q : Text,
      (∃ f ∈ Table.get? r.files "a.ts", q ∈ f.symbols) ∧ ∃ s ∈ Table.get? r.symbols q, s.file ≠ "a.ts" := by
  have hfacts :
      let fs := indexAll scriptRules sharedName
      let r := ofLinked (fs.map (relinked ⟨fs.map linkUnit⟩ fun _ => true))
      (sharedName.mapM fun e => ofText scriptRules e.1 e.2).isOk = true ∧
        fs.Pairwise (fun f g => IndexedFile.le f g = true) ∧
        (∃ f ∈ Table.get? r.files "a.ts", ofString "a.ts:C.[/b.ts:D.[/]/]" ∈ f.symbols) ∧
        ∃ s ∈ Table.get? r.symbols "a.ts:C.[/b.ts:D.[/]/]", s.file ≠ ofString "a.ts" := by
    decide +kernel
  obtain ⟨hok, hsorted, hlisted, hfiled⟩ := hfacts
  refine ⟨by decide, by decide, ofIndexed (indexAll scriptRules sharedName), ?_, "a.ts:C.[/b.ts:D.[/]/]", ?_⟩
  · rw [ofFiles, indexAll_eq hok]
    rfl
  · rw [ofIndexed, assemble_eq_of_sorted hsorted]
    exact ⟨hlisted, hfiled⟩

end ProjectIndex
end AnnotationIndex
