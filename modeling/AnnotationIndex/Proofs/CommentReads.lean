import AnnotationIndex.Outline.Extractor
import AnnotationIndex.Proofs.RawReads

/-!
What comments can change in an outline. Two texts that show the same outside comments have the same masked lines, so
an extractor can only tell them apart by what it reads in lines as they are written, and cannot where it reads the
same of each.
-/
namespace AnnotationIndex
open Text

/-- The outline without signatures, which are cut from lines as they are written. -/
def Outline.unsigned (o : Outline) : Outline := { o with declarations := o.declarations.map Declaration.unsigned }

def Outline.rest (o : Outline) : Outline := { o with declarations := [], exports := [] }

theorem Outline.eq_iff_of_rest {a b : Outline} (h : a.rest = b.rest) :
    a = b ↔ a.declarations = b.declarations ∧ a.exports = b.exports := by
  obtain ⟨_, _, _, _, _⟩ := a
  obtain ⟨_, _, _, _, _⟩ := b
  simp only [Outline.rest, Outline.mk.injEq, true_and] at h ⊢
  tauto

structure CommentReader where
  extractor : Extractor
  /-- What lines show outside comments. -/
  shown : List Text → List (List (Option UInt16))
  /-- The part of an outline that is read in masked lines. -/
  inCode : Outline → Outline
  /-- What is read of a line as it is written. -/
  Reading : Type
  reading : Text → Reading
  /-- Whether what is read of two texts as they are written comes to the same. -/
  ReadsSame : Text → Text → Prop

def exportedRows (ds : List Declaration) : List ExportRow :=
  (ds.filter fun d => d.exported && d.kind ≠ .method).map fun d => .own d.name d.name

theorem exportedRows_map (f : Declaration → Declaration)
    (hf : ∀ d, (f d).name = d.name ∧ (f d).exported = d.exported ∧ (f d).kind = d.kind) (ds : List Declaration) :
    exportedRows (ds.map f) = exportedRows ds := by
  simp only [exportedRows, List.filter_map, List.map_map, Function.comp_def, hf]

theorem exportedRows_unsigned (ds : List Declaration) : exportedRows (ds.map Declaration.unsigned) = exportedRows ds :=
  exportedRows_map Declaration.unsigned (fun _ => ⟨rfl, rfl, rfl⟩) ds

def Declaration.unplaced (d : Declaration) : Declaration := { d with lineSpan := ⟨0, d.lineSpan.stop⟩ }

theorem map_begun_eq_iff {p : Text → Bool} {sources sources' : List Text} {ds : List Declaration} :
    ds.map (Declaration.begun p sources) = ds.map (Declaration.begun p sources') ↔
      ∀ d ∈ ds, CodeLine.leadingAt p sources d.lineSpan.start = CodeLine.leadingAt p sources' d.lineSpan.start := by
  rw [List.map_inj_left]
  refine forall₂_congr fun d _ => ⟨fun h => ?_, fun h => ?_⟩
  · have hstart : d.lineSpan.start - CodeLine.leadingAt p sources d.lineSpan.start =
        d.lineSpan.start - CodeLine.leadingAt p sources' d.lineSpan.start := congrArg (·.lineSpan.start) h
    omega
  · rw [Declaration.begun, Declaration.begun, h]

theorem map_unplaced_begun (p : Text → Bool) (sources : List Text) (ds : List Declaration) :
    (ds.map (Declaration.begun p sources)).map Declaration.unplaced =
      (ds.map Declaration.unsigned).map Declaration.unplaced := by
  simp only [List.map_map]
  rfl

namespace CodeLine

theorem map_source_indexFrom (d : Depth) (es : List (Text × Text)) :
    (indexFrom d es).map (·.source) = es.map Prod.fst := by
  induction es generalizing d with
  | nil => rfl
  | cons e es ih => rw [indexFrom, List.map_cons, List.map_cons, ih]

theorem map_bare_indexFrom (d : Depth) (es : List (Text × Text)) :
    (indexFrom d es).map bare = indexFrom d ((es.map Prod.snd).map fun code => ([], code)) := by
  induction es generalizing d with
  | nil => rfl
  | cons e es ih =>
    rw [indexFrom, List.map_cons, ih]
    rfl

def ofText (o : Mask.Options) (text : Text) : List CodeLine := index (lines text) (Mask.code o (lines text))

theorem passed_ofText (o : Mask.Options) (text : Text) : Passed (lines text) [] (ofText o text) 1 where
  line_eq := rfl
  sources_eq := by
    rw [List.reverse_nil, List.nil_append, ofText, index, map_source_indexFrom]
    exact List.map_fst_zip (Nat.le_of_eq (Mask.length_codeFrom o .code _).symm)

/-- Texts that show the same have the same masked lines. -/
theorem map_bare_ofText {o : Mask.Options} {s t : Text}
    (h : Mask.shownFrom o .code (lines s) = Mask.shownFrom o .code (lines t)) :
    (ofText o s).map bare = (ofText o t).map bare := by
  have hcodes (text : Text) : ((lines text).zip (Mask.code o (lines text))).map Prod.snd = Mask.code o (lines text) :=
    List.map_snd_zip (Nat.le_of_eq (Mask.length_codeFrom o .code (lines text)))
  rw [ofText, index, map_bare_indexFrom, hcodes, Mask.code_congr o h, ← hcodes, ← map_bare_indexFrom]
  rfl

/-- What is read in masked lines is the same in texts that show the same. -/
theorem read_congr {β : Type} {f : List CodeLine → β} (hf : ∀ ls, f (ls.map bare) = f ls) {o : Mask.Options}
    {s t : Text}
    (h : Mask.shownFrom o .code (lines s) = Mask.shownFrom o .code (lines t)) : f (ofText o s) = f (ofText o t) := by
  rw [← hf, map_bare_ofText h, hf]

/-- Texts that show the same are alike line by line, if of each line the same is read as it is written. -/
theorem alike_ofText {β : Type} {read : Text → β} {o : Mask.Options} {s t : Text}
    (h : Mask.shownFrom o .code (lines s) = Mask.shownFrom o .code (lines t))
    (hread : (lines s).map read = (lines t).map read) : List.Forall₂ (Alike read) (ofText o s) (ofText o t) := by
  have hsource (text : Text) : (ofText o text).map (·.source) = lines text := (passed_ofText o text).sources_eq
  rw [← hsource s, ← hsource t, List.map_map, List.map_map] at hread
  exact List.Forall₂.mp (fun _ _ => And.intro) (forall₂_iff_map_eq.mpr (map_bare_ofText h))
    (forall₂_iff_map_eq.mpr hread)

theorem length_lines {o : Mask.Options} {s t : Text}
    (h : Mask.shownFrom o .code (lines s) = Mask.shownFrom o .code (lines t)) :
    (lines s).length = (lines t).length := by
  rw [← Mask.length_shownFrom o .code, h, Mask.length_shownFrom]

end CodeLine

namespace Go

def linesOf (text : Text) : List CodeLine := CodeLine.ofText ⟨true, true, false⟩ text

/-- The outline but for its imports is read in masked lines. -/
def commentReader : CommentReader where
  extractor := .go
  shown := Mask.shownFrom ⟨true, true, false⟩ .code
  inCode o := { o with imports := [] }
  Reading := Reading
  reading := reading
  ReadsSame s t := importsFrom 1 (linesOf s) = importsFrom 1 (linesOf t)

theorem inCode_outline {s t : Text} (h : commentReader.shown (lines s) = commentReader.shown (lines t)) :
    commentReader.inCode (outline s).unsigned = commentReader.inCode (outline t).unsigned := by
  have hdeclarations : (declarationsFrom 1 (linesOf s)).map Declaration.unsigned =
      (declarationsFrom 1 (linesOf t)).map Declaration.unsigned :=
    CodeLine.read_congr (f := fun ls => (declarationsFrom 1 ls).map Declaration.unsigned) (declarationsFrom_bare 1) h
  have hexports : exportedRows (declarationsFrom 1 (linesOf s)) = exportedRows (declarationsFrom 1 (linesOf t)) := by
    rw [← exportedRows_unsigned, hdeclarations, exportedRows_unsigned]
  have hcalls : calls (linesOf s) = calls (linesOf t) := CodeLine.read_congr calls_bare h
  have hlines := CodeLine.length_lines h
  show Outline.mk _ _ _ _ _ = Outline.mk _ _ _ _ _
  congr 1

theorem unsigned_outline_eq_iff {s t : Text} (h : commentReader.shown (lines s) = commentReader.shown (lines t)) :
    (outline s).unsigned = (outline t).unsigned ↔ commentReader.ReadsSame s t := by
  refine ⟨congrArg Outline.imports, fun himports => ?_⟩
  have hcode := inCode_outline h
  show Outline.mk _ _ _ _ _ = Outline.mk _ _ _ _ _
  exact congrArg₂ (fun o i => { o with imports := i }) hcode himports

theorem readsSame_of_reading {s t : Text} (h : commentReader.shown (lines s) = commentReader.shown (lines t))
    (hread : (lines s).map reading = (lines t).map reading) : commentReader.ReadsSame s t :=
  importsFrom_congr (CodeLine.alike_ofText h hread) 1

end Go

namespace Rust

def linesOf (text : Text) : List CodeLine := CodeLine.ofText ⟨false, true, false⟩ text

/-- The declarations of masked lines: each begins at its own line. -/
def codeDeclarations (text : Text) : List Declaration := declarationsFrom [] 1 ((linesOf text).map CodeLine.bare)

/-- The outline is read in masked lines, but for the attributes above a declaration. -/
def commentReader : CommentReader where
  extractor := .rust
  shown := Mask.shownFrom ⟨false, true, false⟩ .code
  inCode o := { o with declarations := o.declarations.map Declaration.unplaced }
  Reading := Bool
  reading := reading
  ReadsSame s t := ∀ d ∈ codeDeclarations s,
    CodeLine.leadingAt isAttribute (lines s) d.lineSpan.start =
      CodeLine.leadingAt isAttribute (lines t) d.lineSpan.start

theorem outline_eq (text : Text) :
    outline text =
      { lineCount := (lines text).length
        declarations := declarationsFrom [] 1 (linesOf text)
        imports := (usesFrom 1 (linesOf text)).flatMap (·.imports)
        exports := exportedRows (declarationsFrom [] 1 (linesOf text)) ++
          (usesFrom 1 (linesOf text)).flatMap (·.exports)
        calls := calls (linesOf text) } := rfl

theorem unsigned_declarations (text : Text) :
    (declarationsFrom [] 1 (linesOf text)).map Declaration.unsigned =
      (codeDeclarations text).map (Declaration.begun isAttribute (lines text)) :=
  (declarationsFrom_begun (CodeLine.passed_ofText ⟨false, true, false⟩ text)).symm

theorem exportedRows_declarations (text : Text) :
    exportedRows (declarationsFrom [] 1 (linesOf text)) = exportedRows (codeDeclarations text) := by
  rw [← exportedRows_unsigned, unsigned_declarations,
    exportedRows_map (Declaration.begun _ _) fun _ => ⟨rfl, rfl, rfl⟩]

section Twins
variable {s t : Text} (h : commentReader.shown (lines s) = commentReader.shown (lines t))
include h

theorem codeDeclarations_congr : codeDeclarations s = codeDeclarations t := by
  rw [codeDeclarations, linesOf, CodeLine.map_bare_ofText h]
  rfl

theorem rest_outline : (outline s).unsigned.rest = (outline t).unsigned.rest := by
  have huses : usesFrom 1 (linesOf s) = usesFrom 1 (linesOf t) := CodeLine.read_congr (usesFrom_bare 1) h
  have hcalls : calls (linesOf s) = calls (linesOf t) := CodeLine.read_congr calls_bare h
  rw [outline_eq, outline_eq]
  simp only [Outline.unsigned, Outline.rest, huses, hcalls, CodeLine.length_lines h]

theorem exports_outline : (outline s).exports = (outline t).exports := by
  have huses : usesFrom 1 (linesOf s) = usesFrom 1 (linesOf t) := CodeLine.read_congr (usesFrom_bare 1) h
  rw [outline_eq, outline_eq, exportedRows_declarations, exportedRows_declarations, codeDeclarations_congr h, huses]

theorem inCode_outline : commentReader.inCode (outline s).unsigned = commentReader.inCode (outline t).unsigned := by
  have hrest : (commentReader.inCode (outline s).unsigned).rest = (commentReader.inCode (outline t).unsigned).rest :=
    rest_outline h
  refine (Outline.eq_iff_of_rest hrest).mpr ⟨?_, exports_outline h⟩
  rw [outline_eq, outline_eq]
  simp only [commentReader, Outline.unsigned, unsigned_declarations, map_unplaced_begun,
    codeDeclarations_congr h]

theorem unsigned_outline_eq_iff : (outline s).unsigned = (outline t).unsigned ↔ commentReader.ReadsSame s t := by
  rw [Outline.eq_iff_of_rest (rest_outline h)]
  rw [outline_eq, outline_eq]
  simp only [Outline.unsigned, unsigned_declarations]
  rw [codeDeclarations_congr h, map_begun_eq_iff, ← codeDeclarations_congr h]
  exact and_iff_left (exports_outline h)

end Twins

theorem readsSame_of_reading {s t : Text} (hread : (lines s).map reading = (lines t).map reading) :
    commentReader.ReadsSame s t := fun d _ => CodeLine.leadingAt_congr hread d.lineSpan.start

end Rust

namespace Java

def linesOf (text : Text) : List CodeLine := CodeLine.ofText ⟨false, true, false⟩ text

/-- The declarations of masked lines: each begins at its own line. -/
def codeDeclarations (text : Text) : List Declaration := declarationsFrom [] 1 ((linesOf text).map CodeLine.bare)

/-- The outline is read in masked lines, but for the annotations above a declaration and the members that are
exported, which are those whose header has the word `static`. -/
def commentReader : CommentReader where
  extractor := .java
  shown := Mask.shownFrom ⟨false, true, false⟩ .code
  inCode o :=
    { o with
      declarations := o.declarations.map Declaration.unplaced
      exports := o.exports.filter fun row => row.binding == some row.name }
  Reading := Bool × Bool
  reading := reading
  ReadsSame s t :=
    (∀ d ∈ codeDeclarations s, CodeLine.leadingAt annotationLine.starts (lines s) d.lineSpan.start =
      CodeLine.leadingAt annotationLine.starts (lines t) d.lineSpan.start) ∧
    (declarationsFrom [] 1 (linesOf s)).filterMap exportRow? = (declarationsFrom [] 1 (linesOf t)).filterMap exportRow?

theorem outline_eq (text : Text) :
    outline text =
      { lineCount := (lines text).length
        declarations := declarationsFrom [] 1 (linesOf text)
        imports := imports (linesOf text)
        exports := (declarationsFrom [] 1 (linesOf text)).filterMap exportRow?
        calls := calls (linesOf text) } := rfl

theorem written_codeDeclarations (text : Text) :
    (codeDeclarations text).map (written (lines text)) = declarationsFrom [] 1 (linesOf text) :=
  declarationsFrom_written (CodeLine.passed_ofText ⟨false, true, false⟩ text)

theorem unsigned_declarations (text : Text) :
    (declarationsFrom [] 1 (linesOf text)).map Declaration.unsigned =
      (codeDeclarations text).map (Declaration.begun annotationLine.starts (lines text)) := by
  rw [← written_codeDeclarations, List.map_map]
  rfl

def typeRow? (d : Declaration) : Option ExportRow :=
  if d.exported && d.container.isNone then some (.own d.name d.name) else none

theorem filter_exportRow? (d : Declaration) :
    (exportRow? d).filter (fun row => row.binding == some row.name) = typeRow? d := by
  unfold exportRow? typeRow?
  cases hexported : d.exported with
  | false => rfl
  | true =>
    cases hcontainer : d.container with
    | none => simp [ExportRow.own]
    | some c =>
      have hlonger : c ++ unit '.' :: d.name ≠ d.name := fun e => by
        have hlength := congrArg List.length e
        rw [List.length_append, List.length_cons] at hlength
        omega
      simp only [Bool.not_true, Bool.false_eq_true, if_false, Option.isNone_some, Bool.and_false]
      split <;> simp [ExportRow.own, hlonger]

theorem typeRows_outline (text : Text) :
    (outline text).exports.filter (fun row => row.binding == some row.name) =
      (codeDeclarations text).filterMap typeRow? := by
  have hbegun : ((declarationsFrom [] 1 (linesOf text)).map Declaration.unsigned).filterMap typeRow? =
      ((codeDeclarations text).map (Declaration.begun annotationLine.starts (lines text))).filterMap typeRow? := by
    rw [unsigned_declarations]
  rw [List.filterMap_map, List.filterMap_map] at hbegun
  rw [outline_eq, List.filter_filterMap]
  simp only [filter_exportRow?]
  exact hbegun

section Twins
variable {s t : Text} (h : commentReader.shown (lines s) = commentReader.shown (lines t))
include h

theorem codeDeclarations_congr : codeDeclarations s = codeDeclarations t := by
  rw [codeDeclarations, linesOf, CodeLine.map_bare_ofText h]
  rfl

theorem rest_outline : (outline s).unsigned.rest = (outline t).unsigned.rest := by
  have himports : imports (linesOf s) = imports (linesOf t) := CodeLine.read_congr imports_bare h
  have hcalls : calls (linesOf s) = calls (linesOf t) := CodeLine.read_congr calls_bare h
  simp only [outline_eq, Outline.unsigned, Outline.rest, himports, hcalls, CodeLine.length_lines h]

theorem inCode_outline : commentReader.inCode (outline s).unsigned = commentReader.inCode (outline t).unsigned := by
  have hrest : (commentReader.inCode (outline s).unsigned).rest = (commentReader.inCode (outline t).unsigned).rest :=
    rest_outline h
  refine (Outline.eq_iff_of_rest hrest).mpr ⟨?_, ?_⟩
  · simp only [commentReader, Outline.unsigned, outline_eq, unsigned_declarations, map_unplaced_begun,
      codeDeclarations_congr h]
  · show (outline s).exports.filter _ = (outline t).exports.filter _
    rw [typeRows_outline, typeRows_outline, codeDeclarations_congr h]

theorem unsigned_outline_eq_iff : (outline s).unsigned = (outline t).unsigned ↔ commentReader.ReadsSame s t := by
  rw [Outline.eq_iff_of_rest (rest_outline h)]
  simp only [Outline.unsigned, outline_eq, unsigned_declarations]
  rw [codeDeclarations_congr h, map_begun_eq_iff, ← codeDeclarations_congr h]
  rfl

theorem readsSame_of_reading (hread : (lines s).map reading = (lines t).map reading) : commentReader.ReadsSame s t := by
  have hannotations := congrArg (List.map Prod.fst) hread
  rw [List.map_map, List.map_map] at hannotations
  refine ⟨fun d _ => CodeLine.leadingAt_congr hannotations d.lineSpan.start, ?_⟩
  rw [← written_codeDeclarations, ← written_codeDeclarations, codeDeclarations_congr h, List.filterMap_map,
    List.filterMap_map]
  exact List.filterMap_congr fun d _ => exportRow?_written hread d

end Twins

end Java

namespace Python

theorem isDecorator_eq (t : Text) : isDecorator (trim t) = ((trimStart t).head? == some (unit '@')) := by
  rw [← head?_trim]
  cases trim t with
  | nil => rfl
  | cons u rest =>
    have hsign : ofString "@" = [unit '@'] := by decide
    rw [isDecorator, startsWith, hsign, List.isPrefixOf_cons_cons, List.isPrefixOf_nil_left, Bool.and_true,
      Bool.beq_comm]
    rfl

/-- Whether a line is a decorator is the same in lines that show the same. -/
theorem isDecorator_silenced (m : Mask.IndentedMode) (t : Text) :
    isDecorator (trim (Mask.silenced (Mask.shownIndented m t))) = isDecorator (trim t) := by
  rw [isDecorator_eq, isDecorator_eq, Mask.head?_trimStart_silenced]

theorem map_isDecorator_silenced (m : Mask.IndentedMode) (ls : List Text) :
    (Mask.shownIndentedFrom m ls).map (fun shows => isDecorator (trim (Mask.silenced shows))) =
      ls.map fun t => isDecorator (trim t) := by
  induction ls generalizing m with
  | nil => rfl
  | cons t ls ih => rw [Mask.shownIndentedFrom, List.map_cons, List.map_cons, isDecorator_silenced, ih]

def linesOf (text : Text) : List Line :=
  ((lines text).zip (Mask.indented (lines text))).map fun (source, code) => Line.mk source code

theorem map_bare_linesOf {s t : Text}
    (h : Mask.shownIndentedFrom .code (lines s) = Mask.shownIndentedFrom .code (lines t)) :
    (linesOf s).map Line.bare = (linesOf t).map Line.bare := by
  have hflags : (lines s).map (fun t => isDecorator (trim t)) = (lines t).map fun t => isDecorator (trim t) := by
    rw [← map_isDecorator_silenced .code, h, map_isDecorator_silenced]
  have hbare (text : Text) : (linesOf text).map Line.bare =
      (((lines text).map fun t => isDecorator (trim t)).zip (Mask.indented (lines text))).map fun e =>
        Line.mk (if e.1 then ofString "@" else []) e.2 := by
    rw [linesOf, List.map_map, List.zip_map_left, List.map_map]
    rfl
  rw [hbare, hbare, hflags, Mask.indented_congr h]

def ownNames (ds : List Declaration) : List Text := (ds.filter fun d => d.kind ≠ .method && d.exported).map (·.name)

def listedRows (own : List Text) (imports : List ImportStatement) (ns : List Text) : List ExportRow :=
  imports.flatMap fun s =>
    s.names.filterMap fun n =>
      if own.elem n.binding || !ns.elem n.binding then none else some (ExportRow.again n.binding s.specifier n.name)

theorem exportTable_some (ds : List Declaration) (imports : List ImportStatement) (ns : List Text) (isPackage : Bool) :
    exportTable ds imports (some ns) isPackage =
      (ownNames ds).map (fun n => ExportRow.own n n) ++ listedRows (ownNames ds) imports ns := by
  simp only [exportTable, Option.isNone_some, Bool.and_false, Bool.false_eq_true, if_false]
  rfl

theorem mem_listedRows {own : List Text} {imports : List ImportStatement} {ns : List Text} {row : ExportRow} :
    row ∈ listedRows own imports ns ↔
      ∃ s ∈ imports, ∃ n ∈ s.names,
        n.binding ∉ own ∧ n.binding ∈ ns ∧ ExportRow.again n.binding s.specifier n.name = row := by
  simp [listedRows, and_assoc]

theorem listedRows_eq_iff {own : List Text} {imports : List ImportStatement} {ns ns' : List Text} :
    listedRows own imports ns = listedRows own imports ns' ↔
      ∀ s ∈ imports, ∀ n ∈ s.names, n.binding ∉ own → (n.binding ∈ ns ↔ n.binding ∈ ns') := by
  constructor
  · -- The row of an imported name shows under which name it is listed.
    have himp {ns ns' : List Text} (h : listedRows own imports ns = listedRows own imports ns')
        {s : ImportStatement} (hs : s ∈ imports) {n : ImportedName} (hn : n ∈ s.names) (hown : n.binding ∉ own)
        (hlisted : n.binding ∈ ns) : n.binding ∈ ns' := by
      have hrow := mem_listedRows.mpr ⟨s, hs, n, hn, hown, hlisted, rfl⟩
      rw [h] at hrow
      obtain ⟨s', _, n', _, _, hlisted', hsame⟩ := mem_listedRows.mp hrow
      have hbinding : n'.binding = n.binding := congrArg ExportRow.name hsame
      exact hbinding ▸ hlisted'
    exact fun h s hs n hn hown => ⟨himp h hs hn hown, himp h.symm hs hn hown⟩
  · intro h
    refine List.flatMap_congr fun s hs => List.filterMap_congr fun n hn => ?_
    by_cases hown : n.binding ∈ own
    · simp [hown]
    · simp [hown, h s hs n hn hown]

theorem map_withExports_eq_iff {ds : List Declaration} {ns ns' : List Text} :
    ds.map (withExports (some ns)) = ds.map (withExports (some ns')) ↔
      ∀ d ∈ ds, d.kind ≠ .method → (d.name ∈ ns ↔ d.name ∈ ns') := by
  rw [List.map_inj_left]
  refine forall₂_congr fun d _ => ?_
  by_cases hd : d.kind = .method
  · simp [withExports, hd]
  · simp [withExports, hd, Declaration.mk.injEq]

theorem withExports_kind (listed : Option (List Text)) (d : Declaration) : (withExports listed d).kind = d.kind := by
  unfold withExports
  split <;> rfl

theorem withExports_name (listed : Option (List Text)) (d : Declaration) : (withExports listed d).name = d.name := by
  unfold withExports
  split <;> rfl

def interfaceOf (ds : List Declaration) (imports : List ImportStatement) : List Text :=
  (ds.filter fun d => d.kind ≠ .method).map (·.name) ++ imports.flatMap fun s => s.names.map (·.binding)

theorem mem_interfaceOf {ds : List Declaration} {imports : List ImportStatement} {n : Text} :
    n ∈ interfaceOf ds imports ↔
      (∃ d ∈ ds, d.kind ≠ .method ∧ d.name = n) ∨ ∃ s ∈ imports, ∃ i ∈ s.names, i.binding = n := by
  simp [interfaceOf, and_assoc]

theorem exists_of_mem_ownNames {ds : List Declaration} {listed : Option (List Text)} {n : Text}
    (h : n ∈ ownNames (ds.map (withExports listed))) : ∃ d ∈ ds, d.kind ≠ .method ∧ d.name = n := by
  obtain ⟨_, hd, rfl⟩ := List.mem_map.mp h
  obtain ⟨hd, hkind⟩ := List.mem_filter.mp hd
  obtain ⟨d, hd', rfl⟩ := List.mem_map.mp hd
  simp only [withExports_kind, Bool.and_eq_true, decide_eq_true_eq] at hkind
  exact ⟨d, hd', hkind.1, (withExports_name listed d).symm⟩

/-- Two lists of exports give the same exports exactly if they agree on the names that the module has. -/
theorem exports_eq_iff {ds : List Declaration} {imports : List ImportStatement} {ns ns' : List Text}
    (isPackage : Bool) :
    (ds.map (withExports (some ns)) = ds.map (withExports (some ns')) ∧
      exportTable (ds.map (withExports (some ns))) imports (some ns) isPackage =
        exportTable (ds.map (withExports (some ns'))) imports (some ns') isPackage) ↔
      ∀ n ∈ interfaceOf ds imports, n ∈ ns ↔ n ∈ ns' := by
  constructor
  · rintro ⟨hds, hrows⟩ n hn
    have hnames := map_withExports_eq_iff.mp hds
    rw [← hds, exportTable_some, exportTable_some, List.append_right_inj, listedRows_eq_iff] at hrows
    by_cases hdeclared : ∃ d ∈ ds, d.kind ≠ .method ∧ d.name = n
    · obtain ⟨d, hd, hkind, rfl⟩ := hdeclared
      exact hnames d hd hkind
    · obtain ⟨s, hs, i, hi, rfl⟩ := (mem_interfaceOf.mp hn).resolve_left hdeclared
      exact hrows s hs i hi fun hown => hdeclared (exists_of_mem_ownNames hown)
  · intro h
    have hds := map_withExports_eq_iff.mpr fun d hd hkind => h d.name (mem_interfaceOf.mpr (.inl ⟨d, hd, hkind, rfl⟩))
    have hrows := listedRows_eq_iff.mpr fun s hs i hi (_ : i.binding ∉ ownNames (ds.map (withExports (some ns)))) =>
      h i.binding (mem_interfaceOf.mpr (.inr ⟨s, hs, i, hi, rfl⟩))
    exact ⟨hds, by rw [← hds, exportTable_some, exportTable_some, hrows]⟩

def unlisted (d : Declaration) : Declaration := if d.kind = .method then d else { d with exported := false }

theorem unlisted_withExports (listed : Option (List Text)) (d : Declaration) :
    unlisted (withExports listed d) = unlisted d := by
  unfold unlisted withExports
  split_ifs <;> simp_all

theorem unsigned_withExports (listed : Option (List Text)) (d : Declaration) :
    (withExports listed d).unsigned = withExports listed d.unsigned := by
  unfold withExports
  split_ifs <;> simp_all [Declaration.unsigned]

theorem exportTable_unsigned (ds : List Declaration) (imports : List ImportStatement) (listed : Option (List Text))
    (isPackage : Bool) :
    exportTable (ds.map Declaration.unsigned) imports listed isPackage = exportTable ds imports listed isPackage := by
  simp only [exportTable, List.filter_map, List.map_map]
  rfl

def codeDeclarations (text : Text) : List Declaration :=
  (declarationsFrom [] 1 [] (linesOf text)).map Declaration.unsigned

def listedNames (text : Text) : List Text := (listedExports (linesOf text)).getD []

/-- The outline is read in masked lines, but for the names in the list of exports. -/
def commentReader : CommentReader where
  extractor := .python
  shown := Mask.shownIndentedFrom .code
  inCode o := { o with declarations := o.declarations.map unlisted, exports := [] }
  Reading := List Text
  reading := namesIn
  ReadsSame s t := ∀ n ∈ interfaceOf (codeDeclarations s) (importsFrom 1 (linesOf s)),
    n ∈ listedNames s ↔ n ∈ listedNames t

theorem outline_eq (path text : Text) :
    outline path text =
      { lineCount := (lines text).length
        declarations := (declarationsFrom [] 1 [] (linesOf text)).map (withExports (listedExports (linesOf text)))
        imports := importsFrom 1 (linesOf text)
        exports := exportTable ((declarationsFrom [] 1 [] (linesOf text)).map
          (withExports (listedExports (linesOf text))))
          (importsFrom 1 (linesOf text)) (listedExports (linesOf text)) (Path.baseName path == ofString "__init__.py")
        calls := calls (linesOf text) } := rfl

theorem declarations_outline (path text : Text) :
    (outline path text).unsigned.declarations =
      (codeDeclarations text).map (withExports (listedExports (linesOf text))) := by
  simp only [Outline.unsigned, outline_eq, codeDeclarations, List.map_map]
  exact List.map_congr_left fun d _ => unsigned_withExports _ d

theorem exports_outline (path text : Text) :
    (outline path text).unsigned.exports =
      exportTable ((codeDeclarations text).map (withExports (listedExports (linesOf text))))
        (importsFrom 1 (linesOf text))
        (listedExports (linesOf text)) (Path.baseName path == ofString "__init__.py") := by
  rw [← declarations_outline path, Outline.unsigned, exportTable_unsigned]
  rfl

section Twins
variable {s t : Text} (h : commentReader.shown (lines s) = commentReader.shown (lines t)) (path : Text)
include h

theorem codeDeclarations_congr : codeDeclarations s = codeDeclarations t := by
  have hbare := declarationsFrom_bare [] 1 []
  rw [codeDeclarations, ← hbare, map_bare_linesOf h, hbare, codeDeclarations]

theorem imports_congr : importsFrom 1 (linesOf s) = importsFrom 1 (linesOf t) := by
  rw [← importsFrom_bare, map_bare_linesOf h, importsFrom_bare]

theorem isSome_listed : (listedExports (linesOf s)).isSome = (listedExports (linesOf t)).isSome := by
  rw [← isSome_listedExports_bare, map_bare_linesOf h, isSome_listedExports_bare]

theorem rest_outline : (outline path s).unsigned.rest = (outline path t).unsigned.rest := by
  have hcalls : calls (linesOf s) = calls (linesOf t) := by rw [← calls_bare, map_bare_linesOf h, calls_bare]
  have hlines : (lines s).length = (lines t).length := by
    rw [← Mask.length_shownIndentedFrom .code, show Mask.shownIndentedFrom .code (lines s) = _ from h]
    exact Mask.length_shownIndentedFrom .code (lines t)
  simp only [outline_eq, Outline.unsigned, Outline.rest, imports_congr h, hcalls, hlines]

theorem inCode_outline :
    commentReader.inCode (outline path s).unsigned = commentReader.inCode (outline path t).unsigned := by
  have hrest : (commentReader.inCode (outline path s).unsigned).rest =
      (commentReader.inCode (outline path t).unsigned).rest := rest_outline h path
  refine (Outline.eq_iff_of_rest hrest).mpr ⟨?_, rfl⟩
  show (outline path s).unsigned.declarations.map unlisted = (outline path t).unsigned.declarations.map unlisted
  simp only [declarations_outline, List.map_map, Function.comp_def, unlisted_withExports, codeDeclarations_congr h]

theorem unsigned_outline_eq_iff :
    (outline path s).unsigned = (outline path t).unsigned ↔ commentReader.ReadsSame s t := by
  have hsome := isSome_listed h
  rw [Outline.eq_iff_of_rest (rest_outline h path), declarations_outline, declarations_outline, exports_outline,
    exports_outline, ← codeDeclarations_congr h, ← imports_congr h]
  show _ ↔ ∀ n ∈ interfaceOf _ _,
    n ∈ (listedExports (linesOf s)).getD [] ↔ n ∈ (listedExports (linesOf t)).getD []
  cases hs : listedExports (linesOf s) with
  | none =>
    rw [hs, Option.isSome_none, eq_comm, Option.isSome_eq_false_iff, Option.isNone_iff_eq_none] at hsome
    rw [hsome]
    simp
  | some ns =>
    rw [hs, Option.isSome_some, eq_comm, Option.isSome_iff_exists] at hsome
    obtain ⟨ns', ht⟩ := hsome
    rw [ht]
    exact exports_eq_iff _

theorem readsSame_of_reading (hread : (lines s).map namesIn = (lines t).map namesIn) : commentReader.ReadsSame s t := by
  have hsource (text : Text) : (linesOf text).map (·.source) = lines text := by
    rw [linesOf, List.map_map]
    exact List.map_fst_zip (Nat.le_of_eq (Mask.length_indentedFrom .code (lines text)).symm)
  rw [← hsource s, ← hsource t, List.map_map, List.map_map] at hread
  have halike : List.Forall₂ Alike (linesOf s) (linesOf t) :=
    List.Forall₂.mp (fun _ _ => And.intro) (forall₂_iff_map_eq.mpr (map_bare_linesOf h)) (forall₂_iff_map_eq.mpr hread)
  intro n _
  rw [listedNames, listedExports_congr halike, listedNames]

end Twins

end Python

def commentReaders : List CommentReader :=
  [Python.commentReader, Go.commentReader, Rust.commentReader, Java.commentReader]

/-- Two texts that show the same outside comments have the same structure exactly if what the extractor reads in
their lines as they are written comes to the same, and so they do if it reads the same of each line. In any case
they have the same part that it reads in masked lines. -/
theorem CommentReader.unsigned_eq_iff {r : CommentReader} (hr : r ∈ commentReaders) {s t : Text}
    (h : r.shown (lines s) = r.shown (lines t)) (path : Text) :
    ∃ a b, r.extractor.outline path s = .ok a ∧ r.extractor.outline path t = .ok b ∧
      r.inCode a.unsigned = r.inCode b.unsigned ∧ (a.unsigned = b.unsigned ↔ r.ReadsSame s t) ∧
      ((lines s).map r.reading = (lines t).map r.reading → a.unsigned = b.unsigned) := by
  simp only [commentReaders, List.mem_cons, List.not_mem_nil, or_false] at hr
  obtain rfl | rfl | rfl | rfl := hr
  · have hiff := Python.unsigned_outline_eq_iff h path
    exact ⟨_, _, rfl, rfl, Python.inCode_outline h path, hiff,
      fun hread => hiff.mpr (Python.readsSame_of_reading h hread)⟩
  · have hiff := Go.unsigned_outline_eq_iff h
    exact ⟨_, _, rfl, rfl, Go.inCode_outline h, hiff, fun hread => hiff.mpr (Go.readsSame_of_reading h hread)⟩
  · have hiff := Rust.unsigned_outline_eq_iff h
    exact ⟨_, _, rfl, rfl, Rust.inCode_outline h, hiff, fun hread => hiff.mpr (Rust.readsSame_of_reading hread)⟩
  · have hiff := Java.unsigned_outline_eq_iff h
    exact ⟨_, _, rfl, rfl, Java.inCode_outline h, hiff, fun hread => hiff.mpr (Java.readsSame_of_reading h hread)⟩

/-- A file with an import statement in a comment, and the file with a note in its place. -/
def Go.commentedImport : Text := "/*\nimport \"fmt\"\n*/\npackage a\n"
def Go.commentedNote : Text := "/*\nonly a note.\n*/\npackage a\n"

def Go.commentedWord : Text := "/*\njust a word.\n*/\npackage a\n"

theorem CommentReader.unsigned_eq_iff_commentedNote :
    ∃ a b, Go.commentReader.extractor.outline [] Go.commentedNote = .ok a ∧
      Go.commentReader.extractor.outline [] Go.commentedWord = .ok b ∧ a.unsigned = b.unsigned := by
  have hread : (lines Go.commentedNote).map Go.reading = (lines Go.commentedWord).map Go.reading := by decide +kernel
  obtain ⟨a, b, ha, hb, _, _, hsame⟩ := CommentReader.unsigned_eq_iff (r := Go.commentReader)
    (s := Go.commentedNote) (t := Go.commentedWord) (by simp [commentReaders]) (by decide +kernel) []
  exact ⟨a, b, ha, hb, hsame hread⟩

/-- An import statement in a comment is taken for one of the file. -/
theorem CommentReader.imports_commentedImport :
    Go.commentReader.shown (lines Go.commentedImport) = Go.commentReader.shown (lines Go.commentedNote) ∧
      (Go.outline Go.commentedImport).imports = [.ofAlias "fmt" 2 "fmt"] ∧
      (Go.outline Go.commentedNote).imports = [] := by
  decide +kernel

/-- Each of the extractors tells two texts apart by a comment. -/
theorem CommentReader.exists_not_readsSame :
    ∀ r ∈ commentReaders, ∃ s t, r.shown (lines s) = r.shown (lines t) ∧ ¬r.ReadsSame s t := by
  simp only [commentReaders, List.forall_mem_cons, List.not_mem_nil, false_imp_iff, implies_true, and_true]
  refine
    ⟨⟨"__all__ = [\n# \"f\"\n]\ndef f(): pass\n", "__all__ = [\n# .f.\n]\ndef f(): pass\n", by decide +kernel, ?_⟩,
    ⟨Go.commentedImport, Go.commentedNote, by decide +kernel, ?_⟩,
    ⟨"/*\n#[a] */\nstruct S;\n", "/*\n [a] */\nstruct S;\n", by decide +kernel, ?_⟩,
    ⟨"/*\n@A\n*/ class C\n", "/*\n A\n*/ class C\n", by decide +kernel, ?_⟩⟩
  · simp only [Python.commentReader]
    decide +kernel
  · simp only [Go.commentReader]
    decide +kernel
  · simp only [Rust.commentReader]
    decide +kernel
  · simp only [Java.commentReader]
    decide +kernel

end AnnotationIndex
