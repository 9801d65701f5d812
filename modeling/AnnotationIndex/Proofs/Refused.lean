import AnnotationIndex.Proofs.Lockstep
import AnnotationIndex.Proofs.ReservedNamespace

/-!
Files that strict validation refuses. Such a file is indexed without its annotations and with one error; everything that
its text says outside annotations is as in permissive validation.
-/
namespace AnnotationIndex
open Text

def SymbolRecord.unannotated (s : SymbolRecord) : SymbolRecord :=
  { s with purpose := none, constraint := none, annotations := [] }

namespace IndexedFile

structure Unannotated (f : IndexedFile) : Prop where
  annotations : f.file.annotations = []
  symbols : ∀ s ∈ f.symbols, s = s.unannotated
  inline : f.file.inline = []
  constraint : f.file.constraint = ⟨.normal, LockLevel.normal.directive, []⟩

/-- Files of one text that differ in nothing but what their annotations say. -/
structure SameOutline (f g : IndexedFile) : Prop where
  path : f.path = g.path
  hash : f.hash = g.hash
  symbols : f.symbols.map SymbolRecord.unannotated = g.symbols.map SymbolRecord.unannotated
  listed : f.file.symbols = g.file.symbols
  exports : f.file.exports = g.file.exports
  imports : f.imports = g.imports
  language : f.file.language = g.file.language
  lines : f.file.lines = g.file.lines

def errorCount (f : IndexedFile) : Nat := (f.file.diagnostics.getD []).countP fun d => d.severity = .error

variable {rules rules' : IndexRules} {path text : Text} {f g : IndexedFile}

section Outline

def unannotatedSymbol (path : Text) (d : Declaration) (q : Text) : SymbolRecord :=
  { qualifiedName := q, name := d.name, kind := d.kind, file := path, lineSpan := d.lineSpan, exported := d.exported
    container := AnnotationMap.present d.container, signature := AnnotationMap.present d.signature, purpose := none
    constraint := none, annotations := [], callers := [], callees := [] }

theorem unannotated_ofDeclaration {d : Declaration} {q : Text} {records : List AnnotationRecord} {s : SymbolRecord}
    (h : SymbolRecord.ofDeclaration path d q records = .ok s) : s.unannotated = unannotatedSymbol path d q := by
  obtain ⟨m, -, rfl⟩ := SymbolRecord.eq_of_ofDeclaration h
  rfl

theorem names_declared (rules : IndexRules) (path text : Text) :
    (declared rules path text).map (fun e => (e.1, e.2.1)) =
      (outlineOf rules path text).1.declarations.zip (qualify path (outlineOf rules path text).1.declarations) := by
  have hlength : (qualify path (outlineOf rules path text).1.declarations).length =
      (association rules path text).symbolRecords.length :=
    (length_qualifyFrom path [] _).trans (length_symbolRecords path _ _ _).symm
  have hnames := List.map_fst_zip (Nat.le_of_eq hlength)
  rw [declared]
  conv_rhs => rw [← hnames, List.zip_map_right]
  rfl

/-- The symbols of a file are its declarations with their names, but for what annotations say. -/
theorem unannotated_symbols (h : ofText rules path text = .ok f) : f.symbols.map SymbolRecord.unannotated =
    ((outlineOf rules path text).1.declarations.zip (qualify path (outlineOf rules path text).1.declarations)).map
      fun e => unannotatedSymbol path e.1 e.2 := by
  rw [← names_declared, List.map_map]
  exact map_eq_of_mapM_ok (madeOf_ofText h).symbols fun e s hs => unannotated_ofDeclaration hs

/-- What a text says outside annotations does not depend on how these are read. -/
theorem sameOutline (he : rules.extractors = rules'.extractors) (hf : ofText rules path text = .ok f)
    (hg : ofText rules' path text = .ok g) : f.SameOutline g := by
  have houtline : outlineOf rules path text = outlineOf rules' path text := by rw [outlineOf, outlineOf, he]
  have hplain : f.symbols.map SymbolRecord.unannotated = g.symbols.map SymbolRecord.unannotated := by
    rw [unannotated_symbols hf, unannotated_symbols hg, houtline]
  have made := madeOf_ofText hf
  have made' := madeOf_ofText hg
  rw [← houtline] at made'
  exact ⟨made.path.trans made'.path.symm, made.hash.trans made'.hash.symm, hplain, made.listed.trans made'.listed.symm,
    made.exports.trans made'.exports.symm, made.imports.trans made'.imports.symm,
    made.language.trans made'.language.symm, made.lines.trans made'.lines.symm⟩

end Outline

section Unannotated
variable {r : AnnotationRefusal}

theorem inLineOrder_nil : AnnotationRecord.inLineOrder [] = [] := List.mergeSort_nil

theorem ofRecords_nil : AnnotationMap.ofRecords [] = .ok [] := by
  rw [AnnotationMap.ofRecords, inLineOrder_nil]
  rfl

theorem own?_nil : Constraint.own? [] = none := by
  rw [Constraint.own?, inLineOrder_nil]
  rfl

theorem ofFile_nil : Constraint.ofFile [] = ⟨.normal, LockLevel.normal.directive, []⟩ := by
  rw [Constraint.ofFile, own?_nil, inLineOrder_nil]
  rfl

/-- A declaration without annotations has nothing of them. -/
theorem unannotated_of_nil {d : Declaration} {q : Text} {s : SymbolRecord}
    (h : SymbolRecord.ofDeclaration path d q [] = .ok s) : s = s.unannotated := by
  obtain ⟨m, hm, rfl⟩ := SymbolRecord.eq_of_ofDeclaration h
  obtain rfl := Except.ok.inj (ofRecords_nil.symm.trans hm)
  rw [own?_nil]
  rfl

/-- Without blocks nothing belongs to anything. -/
theorem ofBlocks_nil (file : Text) (ds : List Declaration) (kinds : List LineKind) :
    Association.ofBlocks file [] ds kinds = ⟨[], List.replicate ds.length [], [], []⟩ := by
  have hrecords : (ds.zipIdx.map fun _ => ([] : List AnnotationRecord)) = List.replicate ds.length [] := by
    rw [List.map_const', List.length_zipIdx]
  exact congrArg (Association.mk [] · [] []) hrecords

/-- An outline that cannot be taken is no error. -/
theorem mild_outlineOf : ∀ d ∈ (outlineOf rules path text).2, d.severity ≠ .error := by
  intro d hd
  unfold outlineOf at hd
  split at hd
  · obtain rfl := List.mem_singleton.mp hd
    exact nofun
  · split at hd
    · exact absurd hd List.not_mem_nil
    · obtain rfl := List.mem_singleton.mp hd
      exact nofun

/-- The reports of a file are stored in an order of their own, and not at all if there are none. -/
theorem countP_reported (p : Diagnostic → Bool) (ds : List Diagnostic) :
    ((if ds.isEmpty then none else some (Diagnostic.sorted ds)).getD []).countP p = ds.countP p := by
  cases ds with
  | nil => rfl
  | cons d rest => exact (List.mergeSort_perm (d :: rest) _).countP_eq p

/-- A refused file is indexed all the same: without annotations, and with the refusal as its one error. -/
theorem unannotated_of_refused (rules : IndexRules)
    (h : Annotations.ofText rules.annotations (commentSyntax rules path) path text = .error r) :
    ∃ f, ofText rules path text = .ok f ∧ f.Unannotated ∧ f.errorCount = 1 := by
  have hblocks : blocksOf rules path text = ([], [Diagnostic.make .annotationMalformed
      ⟨path, some r.span.start, some r.span.stop⟩ r.fault.message (some .error)]) := by rw [blocksOf, h]
  have hkept : ∀ a ∈ kept rules path text, Table.isInherited a.nameSpace = false := by
    intro a ha
    obtain ⟨ab, hab, _⟩ := block_of_kept ha
    rw [hblocks] at hab
    exact absurd hab List.not_mem_nil
  obtain ⟨f, hf⟩ := (ofText_ok rules path text).mpr hkept
  refine ⟨f, hf, ?_⟩
  have made := madeOf_ofText hf
  simp only [hblocks, ofBlocks_nil] at made
  constructor
  · refine ⟨(Except.ok.inj (ofRecords_nil.symm.trans made.annotations)).symm, fun s hs => ?_,
      made.inline.trans List.mergeSort_nil, made.constraint.trans ofFile_nil⟩
    obtain ⟨⟨d, q, records⟩, he, hok⟩ := mem_of_mapM_ok made.symbols hs
    obtain rfl := List.eq_of_mem_replicate (List.of_mem_zip (List.of_mem_zip he).2).2
    exact unannotated_of_nil hok
  · have hmild : (outlineOf rules path text).2.countP (fun d => d.severity = .error) = 0 :=
      List.countP_eq_zero.mpr fun d hd => by simpa using mild_outlineOf d hd
    rw [errorCount, made.diagnostics]
    exact (countP_reported _ _).trans (by rw [List.append_nil, List.countP_append, hmild]; rfl)

end Unannotated

/-- Strict validation refuses exactly the texts in which permissive validation lets something pass, and says the
same of all others. A file that it refuses is indexed without annotations and with one error, and what it says
outside annotations is as in permissive validation, unless this has found an annotation that no map takes. -/
theorem strict_iff_marked (rules : AnnotationRules) :
    (∀ s file t, ∃ a, Annotations.ofText rules.permissive s file t = .ok a ∧
        ((∃ r, Annotations.ofText rules.strict s file t = .error r) ↔ a.Marked) ∧
        (¬a.Marked → Annotations.ofText rules.strict s file t = .ok a)) ∧
      ∀ extractors path text,
        (∃ r, Annotations.ofText rules.strict (commentSyntax ⟨extractors, rules⟩ path) path text = .error r) →
          ∃ f, ofText ⟨extractors, rules.strict⟩ path text = .ok f ∧ f.Unannotated ∧ f.errorCount = 1 ∧
            (∀ g, ofText ⟨extractors, rules.permissive⟩ path text = .ok g → f.SameOutline g) ∧
            ((∃ g, ofText ⟨extractors, rules.permissive⟩ path text = .ok g) ↔
              ∀ a ∈ kept ⟨extractors, rules.permissive⟩ path text, Table.isInherited a.nameSpace = false) := by
  refine ⟨fun s file t => (Annotations.lockstep_ofText rules s file t).result, fun extractors path text hrefused => ?_⟩
  obtain ⟨r, hr⟩ := hrefused
  obtain ⟨f, hf, hplain, herror⟩ := unannotated_of_refused ⟨extractors, rules.strict⟩ hr
  exact ⟨f, hf, hplain, herror, fun g hg => sameOutline (by rfl) hf hg, ofText_ok _ path text⟩

def reservedThenUnknown : Text := "// @acp:constructor x
// @acp:bogus
"

theorem strict_ok_permissive_reserved :
    let rules : AnnotationRules := ⟨.permissive, Provenance.defaultThreshold, ["constructor"]⟩
    (∃ r, Annotations.ofText rules.strict (commentSyntax ⟨Extractor.builtIn, rules⟩ "a.ts") "a.ts" reservedThenUnknown =
      .error r) ∧ ∀ g, ofText ⟨Extractor.builtIn, rules.permissive⟩ "a.ts" reservedThenUnknown ≠ .ok g := by
  intro rules
  constructor
  · have hrefused : (Annotations.ofText rules.strict (commentSyntax ⟨Extractor.builtIn, rules⟩ "a.ts") "a.ts"
        reservedThenUnknown).isOk = false := by decide +kernel
    cases hr : Annotations.ofText rules.strict (commentSyntax ⟨Extractor.builtIn, rules⟩ "a.ts") "a.ts"
        reservedThenUnknown with
    | error r => exact ⟨r, rfl⟩
    | ok a => simp [hr, Except.isOk, Except.toBool] at hrefused
  · intro g hg
    have hkept := (ofText_ok _ _ _).mp ⟨g, hg⟩
    revert hkept
    decide +kernel

end IndexedFile
end AnnotationIndex
