import AnnotationIndex.Index.Basic
import AnnotationIndex.Link.ModuleTarget

/-!
What linking knows of a project: one unit for each file, and the lookups over all units that do not
follow export chains.
-/
namespace AnnotationIndex
open Text

structure LinkUnit where
  path : Text
  language : Text
  symbols : List SymbolRecord
  exports : List ExportRow
  imports : List ImportStatement
  calls : List CallRecord
  deriving DecidableEq

structure ImportBinding where
  statement : ImportStatement
  name : Text

namespace LinkUnit

def symbolNamed (u : LinkUnit) (name : Text) : Option Text :=
  (u.symbols.find? fun s => s.displayName == name).map (·.qualifiedName)

def binding? (u : LinkUnit) (name : Text) : Option ImportBinding :=
  u.imports.findSome? fun s => (s.names.find? fun n => n.binding == name).map fun n => ⟨s, n.name⟩

end LinkUnit

def ImportStatement.request (s : ImportStatement) : ModuleRequest := ⟨s.specifier, s.wildcard⟩

structure LinkTables where
  units : List LinkUnit

namespace LinkTables

/-- The unit of a path, the last of several. -/
def unit? (t : LinkTables) (path : Text) : Option LinkUnit := t.units.reverse.find? fun u => u.path == path

def files (t : LinkTables) : FileSet := ⟨t.units.map (·.path)⟩

/-- The symbol with a qualified name, the last of several. -/
def symbol? (t : LinkTables) (qualifiedName : Text) : Option SymbolRecord :=
  (t.units.flatMap (·.symbols)).reverse.find? fun s => s.qualifiedName == qualifiedName

def symbolNamed (t : LinkTables) (path name : Text) : Option Text :=
  (t.unit? path).bind fun u => u.symbolNamed name

/-- The languages in which the files of a directory share their names. -/
def packageLanguages : List Text := ["go", "java"]

def packageSymbol (t : LinkTables) (u : LinkUnit) (name : Text) : Option Text :=
  if !packageLanguages.elem u.language then none
  else
    (t.files.inDirectory (Path.directory u.path)).findSome? fun sibling =>
      if sibling == u.path || ((t.unit? sibling).map (·.language)) != some u.language then none
      else t.symbolNamed sibling name

def targets (t : LinkTables) (request : ModuleRequest) (source : Text) : List Text :=
  let language := ((t.unit? source).map (·.language)).getD []
  (ModuleTarget.find request source language t.files).filter (· != source)

end LinkTables
end AnnotationIndex
