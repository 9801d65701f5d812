import AnnotationIndex.Proofs.DeclarationOrder
import AnnotationIndex.Proofs.ExportSource
import AnnotationIndex.Proofs.Naming
import AnnotationIndex.Proofs.PatternReading
import AnnotationIndex.Proofs.Session

/-!
What a file exports of its own can be imported. The scanners of lines list the names of a file before those that it
passes on, and bind each of them to the name under which one of its declarations is shown. So the first row of such
a name leads to a symbol of the file, and no other row is asked.
-/
namespace AnnotationIndex
open Text

def ExportRow.OwnOf (ds : List Declaration) (row : ExportRow) : Prop :=
  row.source = none ∧ ∃ d ∈ ds, d.displayName = row.binding.getD row.name

/-- Rows for names of the file, and below them rows for names of other modules. -/
def OwnFirst (ds : List Declaration) (rows : List ExportRow) : Prop :=
  ∃ own others, rows = own ++ others ∧ (∀ row ∈ own, row.OwnOf ds) ∧ ∀ row ∈ others, row.source ≠ none

def Declaration.Placed (d : Declaration) : Prop := d.kind ≠ .method → d.container = none

namespace OwnFirst
variable {ds : List Declaration} {rows : List ExportRow} {row : ExportRow}

theorem of_forall (h : ∀ row ∈ rows, row.OwnOf ds) : OwnFirst ds rows :=
  ⟨rows, [], (List.append_nil rows).symm, h, fun _ h => absurd h List.not_mem_nil⟩

theorem ownOf (h : OwnFirst ds rows) (hrow : row ∈ rows) (hown : row.source = none) : row.OwnOf ds := by
  obtain ⟨own, others, rfl, howns, hothers⟩ := h
  exact howns row ((List.mem_append.mp hrow).resolve_right fun hmem => hothers row hmem hown)

/-- The first row of a name that the file has is one for a name of the file. -/
theorem exists_first (h : OwnFirst ds rows) (hrow : row ∈ rows) (hown : row.source = none) :
    ∃ first more, rows.filter (fun r => r.name == row.name) = first :: more ∧ first.OwnOf ds ∧
      rows.find? (fun r => r.name == row.name && r.source.isNone) = some first := by
  obtain ⟨own, others, rfl, howns, hothers⟩ := h
  have hmem : row ∈ own := (List.mem_append.mp hrow).resolve_right fun hmem => hothers row hmem hown
  obtain ⟨first, more, hfirst⟩ : ∃ first more, own.filter (fun r => r.name == row.name) = first :: more :=
    List.exists_cons_of_ne_nil (List.ne_nil_of_mem (List.mem_filter.mpr ⟨hmem, beq_self_eq_true _⟩))
  have hin : first ∈ own := (List.mem_filter.mp (hfirst ▸ List.mem_cons_self)).1
  refine ⟨first, more ++ others.filter fun r => r.name == row.name, ?_, howns first hin, ?_⟩
  · rw [List.filter_append, hfirst, List.cons_append]
  · have hsame : own.filter (fun r => r.name == row.name && r.source.isNone) = own.filter fun r => r.name == row.name :=
      List.filter_congr fun r hr => by simp [(howns r hr).1]
    rw [← List.head?_filter, List.filter_append, hsame, hfirst, List.cons_append, List.head?_cons]

end OwnFirst

/-- What is exported outside containers is exported under the name under which it is shown. -/
theorem ownOf_listed {ds : List Declaration} (h : ∀ d ∈ ds, d.Placed) :
    ∀ row ∈ (ds.filter fun d => d.exported && d.kind ≠ .method).map fun d => ExportRow.own d.name d.name,
      row.OwnOf ds := by
  refine List.forall_mem_map.mpr fun d hd => ?_
  obtain ⟨hd, hlisted⟩ := List.mem_filter.mp hd
  simp only [ne_eq, Bool.and_eq_true, decide_eq_true_eq] at hlisted
  have hshown : d.displayName = d.name := by rw [Declaration.displayName, h d hd hlisted.2]
  exact ⟨rfl, d, hd, hshown⟩

namespace Go
variable {keyword : Text} {line left : Nat} {ls : List CodeLine}

theorem placed_membersFrom : ∀ d ∈ membersFrom keyword line left ls, d.Placed := by
  fun_induction membersFrom keyword line left ls with
  | case1 | case2 => exact fun _ h => absurd h List.not_mem_nil
  | case3 line l rest left found hfound ih => exact ih
  | case4 line l rest left found m hm n kind ih => exact List.forall_mem_cons.mpr ⟨fun _ => rfl, ih⟩

theorem placed_declared? {l : CodeLine} {rest : List CodeLine} {ds : List Declaration}
    (hds : declared? l rest line = some ds) : ∀ d ∈ ds, d.Placed := by
  unfold declared? at hds
  dsimp only at hds
  split at hds
  · exact Option.some.inj hds ▸ List.forall_mem_singleton.mpr fun h => absurd rfl h
  split at hds
  · exact Option.some.inj hds ▸ List.forall_mem_singleton.mpr fun _ => rfl
  split at hds
  · exact Option.some.inj hds ▸ placed_membersFrom
  split at hds
  · exact Option.some.inj hds ▸ List.forall_mem_singleton.mpr fun _ => rfl
  obtain ⟨m, _, rfl⟩ := Option.map_eq_some_iff.mp hds
  exact List.forall_mem_singleton.mpr fun _ => rfl

theorem placed_declarationsFrom : ∀ d ∈ declarationsFrom line ls, d.Placed := by
  fun_induction declarationsFrom line ls with
  | case1 => exact fun _ h => absurd h List.not_mem_nil
  | case2 line l rest found hfound ih => exact ih
  | case3 line l rest found ds hds n ih =>
    obtain ⟨-, hdeclared⟩ := Option.dite_none_left_eq_some.mp hds
    exact List.forall_mem_append.mpr ⟨placed_declared? hdeclared, ih⟩

theorem ownFirst_outline (text : Text) : OwnFirst (outline text).declarations (outline text).exports :=
  .of_forall (ownOf_listed placed_declarationsFrom)

end Go

namespace Rust
variable {above ls : List CodeLine} {line : Nat}

theorem placed_membersFrom {container : Option Text} {depth left : Nat} {allPublic : Bool} :
    ∀ d ∈ membersFrom container depth allPublic above line left ls, d.Placed := by
  fun_induction membersFrom container depth allPublic above line left ls with
  | case1 | case2 => exact fun _ h => absurd h List.not_mem_nil
  | case3 above line l rest left found hfound ih => exact ih
  | case4 above line l rest left found m hm n ih => exact List.forall_mem_cons.mpr ⟨fun h => absurd rfl h, ih⟩

theorem placed_declared? {l : CodeLine} {rest : List CodeLine} {ds : List Declaration}
    (hds : declared? above l rest line = some ds) : ∀ d ∈ ds, d.Placed := by
  unfold declared? at hds
  dsimp only at hds
  split at hds
  · cases hds
  split at hds
  · exact Option.some.inj hds ▸ placed_membersFrom
  split at hds
  · exact Option.some.inj hds ▸ List.forall_mem_singleton.mpr fun _ => rfl
  split at hds
  · obtain rfl := Option.some.inj hds
    split
    · exact List.forall_mem_cons.mpr ⟨fun _ => rfl, placed_membersFrom⟩
    · exact List.forall_mem_singleton.mpr fun _ => rfl
  split at hds
  · exact Option.some.inj hds ▸ List.forall_mem_singleton.mpr fun _ => rfl
  obtain ⟨m, _, rfl⟩ := Option.map_eq_some_iff.mp hds
  exact List.forall_mem_singleton.mpr fun _ => rfl

theorem placed_declarationsFrom : ∀ d ∈ declarationsFrom above line ls, d.Placed := by
  fun_induction declarationsFrom above line ls with
  | case1 => exact fun _ h => absurd h List.not_mem_nil
  | case2 above line l rest found hfound ih => exact ih
  | case3 above line l rest found ds hds n ih =>
    obtain ⟨-, hdeclared⟩ := Option.dite_none_left_eq_some.mp hds
    exact List.forall_mem_append.mpr ⟨placed_declared? hdeclared, ih⟩

theorem source_addLeaf {isPublic : Bool} {u : Uses} (h : ∀ row ∈ u.exports, row.source ≠ none) (leaf : UseLeaf) :
    ∀ row ∈ (addLeaf line isPublic u leaf).exports, row.source ≠ none := by
  unfold addLeaf
  dsimp only
  split
  · refine List.forall_mem_append.mpr ⟨h, ?_⟩
    split
    · exact List.forall_mem_singleton.mpr nofun
    · exact fun _ h => absurd h List.not_mem_nil
  · split
    · exact h
    · refine List.forall_mem_append.mpr ⟨h, ?_⟩
      split
      · exact List.forall_mem_singleton.mpr nofun
      · exact fun _ h => absurd h List.not_mem_nil

theorem source_usesFrom : ∀ u ∈ usesFrom line ls, ∀ row ∈ u.exports, row.source ≠ none := by
  fun_induction usesFrom line ls with
  | case1 => exact fun _ h => absurd h List.not_mem_nil
  | case2 line l rest t hnone ih => exact ih
  | case3 line l rest t m hsome statement n hstatement tree ih =>
    refine List.forall_mem_cons.mpr ⟨?_, ih⟩
    exact List.foldlRecOn (motive := fun u : Uses => ∀ row ∈ u.exports, row.source ≠ none) _ _
      (fun _ h => absurd h List.not_mem_nil) fun u h leaf _ => source_addLeaf h leaf

theorem ownFirst_outline (text : Text) : OwnFirst (outline text).declarations (outline text).exports := by
  refine ⟨_, _, rfl, ownOf_listed placed_declarationsFrom, fun row hrow => ?_⟩
  obtain ⟨u, hu, hrow⟩ := List.mem_flatMap.mp hrow
  exact source_usesFrom u hu row hrow

end Rust

namespace Python
variable {above : List Line} {line : Nat} {scopes : List Scope}

theorem placed_step (above ls : List Line) (line : Nat) (scopes : List Scope) :
    ∀ d ∈ (step above ls line scopes).declaration, d.Placed := by
  intro d hd
  unfold step at hd
  dsimp only at hd
  repeat' split at hd
  all_goals first
    | cases hd
      exact fun _ => rfl
    | cases hd
      exact fun h => absurd rfl h
    | cases hd

theorem placed_declarationsFrom {ls : List Line} : ∀ d ∈ declarationsFrom above line scopes ls, d.Placed := by
  fun_induction declarationsFrom above line scopes ls with
  | case1 => exact fun _ h => absurd h List.not_mem_nil
  | case2 above line scopes l rest _ ih => exact ih
  | case3 above line scopes l rest _ scopes' s ih =>
    exact List.forall_mem_append.mpr ⟨fun d hd => placed_step _ _ _ _ d (Option.mem_toList.mp hd), ih⟩

theorem placed_withExports {d : Declaration} (h : d.Placed) (listed : Option (List Text)) :
    (withExports listed d).Placed := by
  unfold withExports
  split <;> exact h

theorem ownFirst_exportTable {ds : List Declaration} (hds : ∀ d ∈ ds, d.Placed) (imports : List ImportStatement)
    (listed : Option (List Text)) (isPackage : Bool) : OwnFirst ds (exportTable ds imports listed isPackage) := by
  obtain ⟨others, heq, hothers⟩ := exists_importedRows ds imports listed isPackage
  refine ⟨_, others, heq, ownOf_listed hds, fun row hrow => ?_⟩
  obtain ⟨s, -, hsource⟩ := hothers row hrow
  exact hsource ▸ Option.some_ne_none _

theorem ownFirst_outline (path text : Text) :
    OwnFirst (outline path text).declarations (outline path text).exports := by
  refine ownFirst_exportTable (fun e he => ?_) _ _ _
  obtain ⟨d, hd, rfl⟩ := List.mem_map.mp he
  exact placed_withExports (placed_declarationsFrom d hd) _

end Python

namespace Java
variable {above ls : List CodeLine} {line left : Nat}

theorem container_member? {container : Text} {inInterface : Bool} {l : CodeLine} {rest : List CodeLine}
    {d : Declaration}
    (h : member? container inInterface above l rest line = some d) : d.container = some container := by
  unfold member? at h
  dsimp only at h
  repeat' split at h
  all_goals cases h
  all_goals rfl

theorem container_membersFrom {container : Text} {inInterface : Bool} {depth : Nat} :
    ∀ d ∈ membersFrom container inInterface depth above line left ls, d.container = some container := by
  fun_induction membersFrom container inInterface depth above line left ls with
  | case1 | case2 => exact fun _ h => absurd h List.not_mem_nil
  | case3 above line l rest left found hfound ih => exact ih
  | case4 above line l rest left found d hd n ih =>
    obtain ⟨-, hmember⟩ := Option.dite_none_left_eq_some.mp hd
    exact List.forall_mem_cons.mpr ⟨container_member? hmember, ih⟩

/-- The name of a type is a word, so no member stands in a container without a name. -/
theorem container_declarationsFrom : ∀ d ∈ declarationsFrom above line ls, ∀ c ∈ d.container, c ≠ [] := by
  fun_induction declarationsFrom above line ls with
  | case1 => exact fun _ h => absurd h List.not_mem_nil
  | case2 above line l rest hnone ih => exact ih
  | case3 above line l rest m hm n kind d members ih =>
    have hself : ∀ c ∈ d.container, c ≠ [] := fun _ hc => absurd hc (Option.not_mem_none _)
    refine List.forall_mem_cons.mpr ⟨hself, List.forall_mem_append.mpr ⟨fun e he c hc => ?_, ih⟩⟩
    obtain ⟨-, hheader⟩ := Option.dite_none_left_eq_some.mp hm
    obtain ⟨_, ⟨hname, -⟩, -⟩ := (Pattern.spells_plus isWord).mark_of_start hheader
    obtain rfl := Option.some.inj ((container_membersFrom e he).symm.trans hc)
    exact hname

theorem ownFirst_outline (text : Text) : OwnFirst (outline text).declarations (outline text).exports := by
  refine .of_forall fun row hrow => ⟨source_of_java hrow, ?_⟩
  obtain ⟨d, hd, hrow⟩ := List.mem_filterMap.mp hrow
  refine ⟨d, hd, ?_⟩
  unfold exportRow? at hrow
  rw [Option.ite_none_left_eq_some] at hrow
  have hrow := hrow.2
  cases hc : d.container with
  | none =>
    rw [hc] at hrow
    obtain rfl := Option.some.inj hrow
    rw [Declaration.displayName, hc]
    rfl
  | some c =>
    simp only [hc, Option.ite_none_right_eq_some] at hrow
    obtain rfl := Option.some.inj hrow.2
    have hne : c ≠ [] := container_declarationsFrom d hd c hc
    simp [Declaration.displayName, hc, hne, ExportRow.own]

end Java

/-- Every file of these languages has an outline, with its own names first. -/
theorem Extractor.exists_ownFirst {e : Extractor} (he : e ∈ scanners) (path text : Text) :
    ∃ o, e.outline path text = .ok o ∧ OwnFirst o.declarations o.exports := by
  simp only [scanners, List.mem_cons, List.not_mem_nil, or_false] at he
  obtain rfl | rfl | rfl | rfl := he
  · exact ⟨_, rfl, Python.ownFirst_outline path text⟩
  · exact ⟨_, rfl, Go.ownFirst_outline text⟩
  · exact ⟨_, rfl, Rust.ownFirst_outline text⟩
  · exact ⟨_, rfl, Java.ownFirst_outline text⟩

namespace IndexedFile
variable {rules : IndexRules} {path text : Text} {f : IndexedFile}

/-- The symbols of a file are shown under the names of its declarations. -/
theorem displayNames_ofText (h : ofText rules path text = .ok f) :
    f.symbols.map (·.displayName) = (outlineOf rules path text).1.declarations.map (·.displayName) := by
  have hnames := map_eq_of_mapM_ok (g := Declaration.displayName ∘ Prod.fst) (madeOf_ofText h).symbols
    fun _ _ hd => displayName_of_ofDeclaration hd
  rw [← List.map_map, List.map_fst_zip] at hnames
  · exact hnames
  · rw [List.length_zip, length_symbolRecords, qualify, length_qualifyFrom, Nat.min_self]

theorem exists_symbol_of_ownOf (h : ofText rules path text = .ok f) {row : ExportRow}
    (hrow : row.OwnOf (outlineOf rules path text).1.declarations) :
    ∃ s ∈ f.symbols, s.displayName = row.binding.getD row.name := by
  obtain ⟨-, d, hd, hname⟩ := hrow
  have hmem : row.binding.getD row.name ∈ f.symbols.map (·.displayName) := by
    rw [displayNames_ofText h, ← hname]
    exact List.mem_map_of_mem hd
  exact List.mem_map.mp hmem

theorem ownFirst_ofText (hr : rules.extractors = Extractor.builtIn) (h : ofText rules path text = .ok f)
    (hl : f.file.language ∈ Extractor.scanners.map (·.id)) :
    OwnFirst (outlineOf rules path text).1.declarations f.file.exports := by
  obtain ⟨-, hexports, hlanguage⟩ := ofText_outline h
  obtain ⟨e, he, hid⟩ := List.mem_map.mp hl
  have hread : Extractor.forFile? rules.extractors path = some e := by
    rw [hr, forFile?_of_language (List.mem_cons_of_mem Extractor.script he) (hlanguage.symm.trans hid.symm)]
  obtain ⟨o, ho, hown⟩ := Extractor.exists_ownFirst he path text
  have houtline : (outlineOf rules path text).1 = o := by rw [outlineOf, hread]; simp only [ho]
  rw [hexports, houtline]
  exact hown

end IndexedFile

/-- A name is found in the unit itself where its first row binds a symbol. -/
theorem LinkUnit.askName_own {u : LinkUnit} {name q : Text} {first : ExportRow} {more : List ExportRow}
    (hrows : u.exports.filter (fun r => r.name == name) = first :: more) (hown : first.source = none)
    (hq : u.symbolNamed (first.binding.getD first.name) = some q) : u.askName name = .answer (.found q) := by
  have hrow : u.askRow first = .answer (.found q) := by simp [askRow, hown, hq]
  unfold askName
  rw [hrows, Inquiry.first, hrow]
  split <;> rfl

theorem LinkTables.resolveExport_of_answer {t : LinkTables} {path name : Text} {l : Lookup}
    (h : t.inquiry ⟨path, name⟩ = .answer l) : t.resolveExport path name = l.value := by
  rw [resolveExport, searchBound, search, h]
  rfl

/-- Among questions to files whose paths have no separator, the last one is answered as the plain search answers it. -/
theorem LinkSession.getLast?_answers {t : LinkTables} (hu : ∀ u ∈ t.units, Plain u.path) {qs : List LinkQuery}
    {q : LinkQuery} (hqs : ∀ q' ∈ qs ++ [q], Plain q'.path) : (answers t (qs ++ [q])).getLast? = some (t.answer q) := by
  rw [answers_of_gives fun q' hq' => gives_answer hu (hqs q' hq'), List.map_append, List.map_singleton,
    List.getLast?_concat]

namespace ProjectIndex
open IndexedFile

/-- What a file of Python, Go, Rust or Java exports of its own is a symbol of the file under its name to show, and
is found there: the name of a row leads to the first symbol for the first such row of that name, whatever other rows
the file has and whatever files are there beside it. A session answers so too, whatever it was asked before. -/
theorem resolveExport_own {rules : IndexRules} (hr : rules.extractors = Extractor.builtIn) {fs : List IndexedFile}
    (hpaths : (fs.map (·.path)).Nodup) {f : IndexedFile} (hf : f ∈ fs) {text : Text}
    (hok : ofText rules f.path text = .ok f)
    (hl : f.file.language ∈ Extractor.scanners.map (·.id)) {row : ExportRow} (hrow : row ∈ f.file.exports)
    (hown : row.source = none) :
    (∃ s ∈ f.symbols, s.displayName = row.binding.getD row.name) ∧
      ∃ first s, f.file.exports.find? (fun r => r.name == row.name && r.source.isNone) = some first ∧
        f.symbols.find? (fun s => s.displayName == first.binding.getD first.name) = some s ∧
        s.qualifiedName ≠ external ∧ (tablesOf fs).resolveExport f.path row.name = some s.qualifiedName ∧
        ((∀ g ∈ fs, Plain g.path) → ∀ qs : List LinkQuery, (∀ q ∈ qs, Plain q.path) →
          (LinkSession.answers (tablesOf fs) (qs ++ [.exported f.path row.name])).getLast? =
            some (some s.qualifiedName)) := by
  have hrows := ownFirst_ofText hr hok hl
  obtain ⟨first, more, hfilter, hfirst, hfind⟩ := hrows.exists_first hrow hown
  obtain ⟨s, hs⟩ : ∃ s, f.symbols.find? (fun s => s.displayName == first.binding.getD first.name) = some s := by
    obtain ⟨s, hs, hname⟩ := exists_symbol_of_ownOf hok hfirst
    exact Option.isSome_iff_exists.mp (List.find?_isSome.mpr ⟨s, hs, beq_iff_eq.mpr hname⟩)
  have hmem : f.linkUnit ∈ (tablesOf fs).units := List.mem_map_of_mem (List.mem_mergeSort.mpr hf)
  have hunit : (tablesOf fs).unit? f.path = some f.linkUnit := by
    refine LinkTables.unit?_of_mem (u := f.linkUnit) ?_ hmem
    rw [tablesOf, List.map_map]
    exact nodup_sorted hpaths
  have hanswer : (tablesOf fs).inquiry ⟨f.path, row.name⟩ = .answer (.found s.qualifiedName) := by
    rw [LinkTables.inquiry, hunit]
    exact LinkUnit.askName_own hfilter hfirst.1 (by rw [LinkUnit.symbolNamed, linkUnit, hs]; rfl)
  have hresolved := LinkTables.resolveExport_of_answer hanswer
  have hcolon : unit ':' ∈ s.qualifiedName := by
    obtain ⟨more, hq, -⟩ := namedIn_ofText hok s (List.mem_of_find?_eq_some hs)
    simp [hq]
  refine ⟨exists_symbol_of_ownOf hok (hrows.ownOf hrow hown), first, s, hfind, hs, ?_, hresolved,
    fun hplain qs hqs => ?_⟩
  · exact fun he => absurd (he ▸ hcolon) (by decide)
  · have hunits : ∀ u ∈ (tablesOf fs).units, Plain u.path := List.forall_mem_map.mpr fun g hg =>
      hplain g (List.mem_mergeSort.mp hg)
    have hpath : Plain (LinkQuery.exported f.path row.name).path := hplain f hf
    have hall := List.forall_mem_append.mpr ⟨hqs, List.forall_mem_singleton.mpr hpath⟩
    exact (LinkSession.getLast?_answers hunits hall).trans (congrArg some hresolved)

def namedTwice : List (Text × Text) := [
  ("a.rs", "pub use b::f;\npub fn f() {}\n"),
  ("b.rs", "pub fn f() {}\n"),
  ("T.java", "public class T \x7b\n  public static void f() \x7b\x7d\n  public static void f(int n) \x7b\x7d\n\x7d\n")]

theorem resolveExport_own_namedTwice : ((indexAll builtInRules namedTwice).map (·.path)).Nodup ∧
    ∀ k ∈ ([("a.rs", "a.rs:f"), ("T.java", "T.java:T.f")] : List (String × String)),
      ∃ f ∈ indexAll builtInRules namedTwice, f.path = ofString k.1 ∧
        1 < (f.file.exports.filter fun r => r.name == ofString "f").length ∧
        (tablesOf (indexAll builtInRules namedTwice)).resolveExport f.path "f" = some (ofString k.2) := by
  have hindexed : (namedTwice.mapM fun e => ofText builtInRules e.1 e.2).isOk = true := by decide +kernel
  have hfacts : ((indexAll builtInRules namedTwice).map (·.path)).Nodup ∧
      ∀ k ∈ ([("a.rs", "a.rs:f"), ("T.java", "T.java:T.f")] : List (String × String)),
        ∃ f ∈ indexAll builtInRules namedTwice, f.path = ofString k.1 ∧
          f.file.language ∈ Extractor.scanners.map (·.id) ∧
          1 < (f.file.exports.filter fun r => r.name == ofString "f").length ∧
          (∃ row ∈ f.file.exports, row.name = "f" ∧ row.source = none) ∧
          ((f.file.exports.find? fun r => r.name == ofString "f" && r.source.isNone).bind fun first =>
            (f.symbols.find? fun s => s.displayName == first.binding.getD first.name).map (·.qualifiedName)) =
              some (ofString k.2) := by
    decide +kernel
  refine ⟨hfacts.1, fun k hk => ?_⟩
  obtain ⟨f, hf, hpath, hl, htwice, ⟨row, hrow, hname, hown⟩, hfirst⟩ := hfacts.2 k hk
  obtain ⟨⟨path, text⟩, _, hok⟩ := mem_of_mapM_ok (indexAll_eq hindexed) hf
  obtain rfl : f.path = path := (owned_ofText hok).2.1
  have hrules : builtInRules.extractors = Extractor.builtIn := rfl
  obtain ⟨-, first, s, hrows, hsymbol, -, hresolved, -⟩ := resolveExport_own hrules hfacts.1 hf hok hl hrow hown
  rw [hname] at hrows hresolved
  rw [hrows, Option.bind_some, hsymbol] at hfirst
  exact ⟨f, hf, hpath, htwice, hresolved.trans hfirst⟩

end ProjectIndex
end AnnotationIndex
