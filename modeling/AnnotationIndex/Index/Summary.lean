import AnnotationIndex.Index.Basic

/-!
The tables over a whole project: its domains, the files under each lock, and how its annotations came
about. They are computed anew from the files and symbols whenever the index changes.
-/
namespace AnnotationIndex
open Text

section Domains

structure DomainMark where
  name : Text
  directive : Text
  file : Text
  symbol : Option Text

def domainMarks (annotations : AnnotationMap) (file : Text) (symbol : Option Text) : List DomainMark :=
  (AnnotationMap.ofNamespace annotations "domain").filterMap fun a =>
    a.payload.name?.map fun n => ⟨n, a.directive, file, symbol⟩

/-- The marks of a project in the order of paths, a file's own before those of its symbols. -/
def allDomainMarks (files : Table FileRecord) (symbols : Table SymbolRecord) : List DomainMark :=
  (sortByKey files).flatMap fun (path, f) =>
    domainMarks f.annotations path none ++
      f.symbols.flatMap fun q =>
        match Table.get? symbols q with
        | some s => domainMarks s.annotations path (some q)
        | none => []

/-- The first directive that is not empty describes a domain. -/
def DomainRecord.ofMarks (marks : List DomainMark) (name : Text) : DomainRecord :=
  let own := marks.filter fun m => m.name == name
  { name
    description := (own.map (·.directive)).find? fun d => !d.isEmpty
    files := sortedSet (own.map (·.file))
    symbols := sortedSet (own.filterMap (·.symbol)) }

def domainTable (files : Table FileRecord) (symbols : Table SymbolRecord) : Table DomainRecord :=
  let marks := allDomainMarks files symbols
  (sortedSet (marks.map (·.name))).foldl (fun t n => Table.put t n (DomainRecord.ofMarks marks n)) []

end Domains

def LockTable.ofFiles (files : Table FileRecord) : LockTable :=
  .tabulate fun level =>
    ((files.values.filter fun f => f.constraint.level = level).map (·.path)).mergeSort Text.le

section Provenance

def allAnnotations (files : Table FileRecord) (symbols : Table SymbolRecord) : List (Text × AnnotationRecord) :=
  (files.values.flatMap fun f => (AnnotationMap.annotations f.annotations).map fun a => (f.path, a)) ++
    symbols.values.flatMap fun s => (AnnotationMap.annotations s.annotations).map fun a => (s.file, a)

def LowConfidence.ofAnnotation (file : Text) (a : AnnotationRecord) : LowConfidence :=
  ⟨file, a.lineSpan.start, a.nameSpace, a.provenance.origin, a.provenance.confidence⟩

def LowConfidence.le (a b : LowConfidence) : Bool :=
  ((Text.compare a.file b.file).then <| (compare a.line b.line).then <|
    Text.compare a.nameSpace b.nameSpace) != .gt

namespace ProvenanceStats

def ofAnnotations (all : List (Text × AnnotationRecord)) : ProvenanceStats :=
  let pending := all.filter fun (_, a) => a.provenance.needsReview
  { byOrigin := .tabulate fun o => (all.filter fun (_, a) => a.provenance.origin = o).length
    needsReview := pending.length
    reviewed := (all.filter fun (_, a) => a.provenance.reviewed).length
    lowConfidence := (pending.map fun (file, a) => LowConfidence.ofAnnotation file a).mergeSort LowConfidence.le }

def ofFiles (files : Table FileRecord) (symbols : Table SymbolRecord) : ProvenanceStats :=
  ofAnnotations (allAnnotations files symbols)

end ProvenanceStats
end Provenance

end AnnotationIndex
