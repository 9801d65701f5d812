import AnnotationIndex.Association
import AnnotationIndex.Digest.Sha256
import AnnotationIndex.Index.Basic
import AnnotationIndex.Language
import AnnotationIndex.Outline.Extractor

/-!
The index of one file, a function of its path, its text and the rules. Its edges to other files are
left empty.
-/
namespace AnnotationIndex
open Text

structure IndexRules where
  extractors : List Extractor
  annotations : AnnotationRules

structure IndexedFile where
  path : Text
  hash : Text
  file : FileRecord
  symbols : List SymbolRecord
  imports : List ImportStatement

section Names

def plainName (path : Text) (d : Declaration) : Text := path ++ unit ':' :: d.displayName

def qualifyFrom (path : Text) (taken : List Text) : List Declaration → List Text
  | [] => []
  | d :: rest =>
    let plain := plainName path d
    let q := if taken.elem plain then plain ++ unit '@' :: (Number.ofInt d.lineSpan.start).toText else plain
    q :: qualifyFrom path (q :: taken) rest

/-- The qualified names of declarations; one whose plain name is taken adds its first line. -/
def qualify (path : Text) (ds : List Declaration) : List Text := qualifyFrom path [] ds

end Names

namespace AnnotationMap

/-- The text or name of a namespace's first annotation, if it is not empty. -/
def textOf (m : AnnotationMap) (n : Text) : Option Text :=
  match (ofNamespace m n).head?.map (·.payload) with
  | some (Payload.text t) => some t
  | some (Payload.name t) => some t
  | _ => none

def present (t : Option Text) : Option Text := t.filter fun t => !t.isEmpty

def namesOf (m : AnnotationMap) (n : Text) : List Text :=
  sortedSet ((ofNamespace m n).filterMap fun a => a.payload.name?)

def symbolNamespaces : List Text := List.map ofString ["fn", "function", "class", "method", "symbol"]

/-- What a symbol is for: a stated purpose or summary, else the directive of a symbol annotation. -/
def purpose (m : AnnotationMap) : Option Text :=
  match present ((textOf m "purpose").or (textOf m "summary")) with
  | some t => some t
  | none =>
    symbolNamespaces.findSome? fun n => present ((ofNamespace m n).head?.map (·.directive))

end AnnotationMap

namespace SymbolRecord

def ofDeclaration (path : Text) (d : Declaration) (qualifiedName : Text)
    (records : List AnnotationRecord) : Except ReservedNamespace SymbolRecord := do
  let annotations ← AnnotationMap.ofRecords records
  return {
    qualifiedName, name := d.name, kind := d.kind, file := path, lineSpan := d.lineSpan
    exported := d.exported
    container := AnnotationMap.present d.container
    signature := AnnotationMap.present d.signature
    purpose := annotations.purpose
    constraint := Constraint.own? records
    annotations, callers := [], callees := [] }

end SymbolRecord

section Calls

/-- The innermost symbol around a line, the first of several. -/
def innermost? (symbols : List SymbolRecord) (line : Int) : Option Text :=
  (symbols.foldl narrow none).map (·.qualifiedName)
where
  narrow (best : Option SymbolRecord) (s : SymbolRecord) : Option SymbolRecord :=
    if !s.lineSpan.contains line then best
    else
      match best with
      | none => some s
      | some b => if s.lineSpan.extent < b.lineSpan.extent then some s else best

def listedCalls (s : SymbolRecord) : List CallRecord :=
  (AnnotationMap.ofNamespace s.annotations "calls").flatMap fun a =>
    match a.payload with
    | .list names => names.map fun n => ⟨n, a.lineSpan.start, some s.qualifiedName⟩
    | _ => []

def CallRecord.le (a b : CallRecord) : Bool :=
  a.line < b.line || (a.line == b.line && Text.le a.callee b.callee)

def collectCalls (sites : List CallSite) (symbols : List SymbolRecord) : List CallRecord :=
  let direct := sites.map fun c => CallRecord.mk c.callee c.line (innermost? symbols c.line)
  (direct ++ symbols.flatMap listedCalls).mergeSort CallRecord.le

end Calls

namespace IndexedFile

def outlineOf (rules : IndexRules) (path text : Text) : Outline × List Diagnostic :=
  match Extractor.forFile? rules.extractors path with
  | none =>
    (Outline.ofLines text, [Diagnostic.ofFile .unsupportedLanguage path
      ("No structural extractor for " ++ Language.ofPath path ++ " files")])
  | some e =>
    match e.outline path text with
    | .ok o => (o, [])
    | .error f =>
      (Outline.ofLines text,
        [Diagnostic.ofFile .unparsableFile path ("Structure extraction failed: " ++ f.message)])

def commentSyntax (rules : IndexRules) (path : Text) : CommentSyntax :=
  ((Extractor.forFile? rules.extractors path).map (·.comments)).getD .general

/-- The annotated blocks of a file; a refused file has none, and the refusal is reported. -/
def blocksOf (rules : IndexRules) (path text : Text) : List AnnotatedBlock × List Diagnostic :=
  match Annotations.ofText rules.annotations (commentSyntax rules path) path text with
  | .ok a => (a.blocks, a.reports)
  | .error r =>
    ([], [Diagnostic.make .annotationMalformed ⟨path, some r.span.start, some r.span.stop⟩ r.fault.message
      (some .error)])

def inlineMarkers (names : List Text) (inline : List InlineRecord) : List InlineMarker :=
  (inline.map fun i =>
    { nameSpace := i.record.nameSpace, line := i.record.lineSpan.start, directive := i.record.directive
      value := AnnotationMap.present (some i.record.value)
      symbol := AnnotationMap.present (i.owner.bind fun n => names[n]?) : InlineMarker }).mergeSort
    fun a b => a.line ≤ b.line

def ofText (rules : IndexRules) (path text : Text) : Except ReservedNamespace IndexedFile := do
  let (outline, outlineReports) := outlineOf rules path text
  let (blocks, blockReports) := blocksOf rules path text
  let kinds := (CommentLine.classify (commentSyntax rules path) text).map (·.kind)
  let association := Association.ofBlocks path blocks outline.declarations kinds
  let reports := outlineReports ++ blockReports ++ association.reports
  let names := qualify path outline.declarations
  let symbols ← (outline.declarations.zip (names.zip association.symbolRecords)).mapM
    fun (d, n, records) => SymbolRecord.ofDeclaration path d n records
  let annotations ← AnnotationMap.ofRecords association.fileRecords
  return {
    path, hash := contentHash text, symbols, imports := outline.imports
    file := {
      path, language := Language.ofPath path, lines := outline.lineCount
      module := AnnotationMap.present (annotations.textOf "module")
      summary := AnnotationMap.present (annotations.textOf "summary")
      purpose := AnnotationMap.present (annotations.textOf "purpose")
      owner := AnnotationMap.present (annotations.textOf "owner")
      layer := AnnotationMap.present (annotations.textOf "layer")
      domains := annotations.namesOf "domain"
      constraint := Constraint.ofFile association.fileRecords
      annotations, symbols := names
      inline := inlineMarkers names association.inline
      exports := outline.exports, imports := [], importedBy := []
      calls := collectCalls outline.calls symbols
      diagnostics := if reports.isEmpty then none else some (Diagnostic.sorted reports) } }

end IndexedFile
end AnnotationIndex
