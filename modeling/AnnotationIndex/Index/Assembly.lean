import AnnotationIndex.Index.IndexedFile
import AnnotationIndex.Index.Summary
import AnnotationIndex.Link.Edges

/-!
Assembly: indexed files become the index of a project. Files to relink get their forward edges anew,
all others keep theirs; the reverse edges and the tables over the project are always computed anew.
-/
namespace AnnotationIndex
open Text

namespace IndexedFile

def linkUnit (f : IndexedFile) : LinkUnit :=
  { path := f.path, language := f.file.language, symbols := f.symbols, exports := f.file.exports
    imports := f.imports, calls := f.file.calls }

def withEdges (f : IndexedFile) (l : LinkedFile) : IndexedFile :=
  { f with
    file := { f.file with imports := l.imports }
    symbols := f.symbols.map fun s => { s with callees := (l.callees.lookup s.qualifiedName).getD [] } }

def le (a b : IndexedFile) : Bool := Text.le a.path b.path

end IndexedFile

section ReverseEdges

def importersOf (files : Table FileRecord) (path : Text) : List Text :=
  if path == external then []
  else sortedSet ((files.values.filter fun f => f.imports.any fun e => e.target == path).map (·.path))

def callersOf (symbols : Table SymbolRecord) (name : Text) : List Text :=
  if name == external then []
  else sortedSet ((symbols.values.filter fun s => s.callees.elem name).map (·.qualifiedName))

def withImporters (files : Table FileRecord) : Table FileRecord :=
  files.mapValues fun f => { f with importedBy := importersOf files f.path }

def withCallers (symbols : Table SymbolRecord) : Table SymbolRecord :=
  symbols.mapValues fun s => { s with callers := callersOf symbols s.qualifiedName }

end ReverseEdges

namespace ProjectIndex

def ofRecords (files : Table FileRecord) (symbols : Table SymbolRecord) (hashes : Table Text) :
    ProjectIndex :=
  let files := withImporters files
  let symbols := withCallers symbols
  { files, symbols
    domains := domainTable files symbols
    locks := LockTable.ofFiles files
    provenance := ProvenanceStats.ofFiles files symbols
    contentHashes := hashes }

def symbolTable (files : List IndexedFile) : Table SymbolRecord :=
  (files.flatMap (·.symbols)).foldl (fun t s => Table.put t s.qualifiedName s) []

def assemble (indexed : List IndexedFile) (relink : Text → Bool) : ProjectIndex :=
  let ordered := indexed.mergeSort IndexedFile.le
  let tables : LinkTables := ⟨ordered.map IndexedFile.linkUnit⟩
  let linked := ordered.map fun f =>
    if relink f.path then f.withEdges (tables.link f.linkUnit) else f
  ofRecords (linked.foldl (fun t f => Table.put t f.path f.file) []) (symbolTable linked)
    (linked.foldl (fun t f => Table.put t f.path f.hash) [])

def ofFiles (rules : IndexRules) (files : List (Text × Text)) : Except ReservedNamespace ProjectIndex := do
  let indexed ← files.mapM fun (path, text) => IndexedFile.ofText rules path text
  return assemble indexed fun _ => true

end ProjectIndex
end AnnotationIndex
