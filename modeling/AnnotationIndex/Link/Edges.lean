import AnnotationIndex.Link.ExportSearch

/-!
The edges of one file: its imports with the symbols that they bind, and the symbols that its calls
reach. A call that cannot be attributed has no edge.
-/
namespace AnnotationIndex
open Text

structure LinkedFile where
  imports : List ImportEntry
  /-- The callees of each caller, in order and each once. -/
  callees : List (Text × List Text)
  deriving DecidableEq

namespace LinkTables

section Imports

def linkedNames (s : ImportStatement) (symbol : Text → Text) : List LinkedName :=
  s.names.map fun n => ⟨n.name, n.binding, symbol n.name⟩

def entryOf (s : ImportStatement) (target : Text) (names : List LinkedName) : ImportEntry :=
  { specifier := s.specifier, line := s.line, target, names, namespaceAlias := s.namespaceAlias
    wildcard := if s.wildcard then some true else none }

/-- The entries of a statement: one for each target, or one that leaves the project. -/
def linkImport (t : LinkTables) (path : Text) (s : ImportStatement) : List ImportEntry :=
  match t.targets s.request path with
  | [] => [entryOf s external (linkedNames s fun _ => external)]
  | targets => targets.map fun target =>
    entryOf s target (linkedNames s fun name => (t.resolveExport target name).getD external)

end Imports

section Calls

def memberOf (t : LinkTables) (owner member : Text) : Option Text :=
  (t.symbol? owner).bind fun s => t.symbolNamed s.file (s.name ++ unit '.' :: member)

def wildcardSymbol (t : LinkTables) (u : LinkUnit) (name : Text) : Option Text :=
  (u.imports.filter (·.wildcard)).findSome? fun s =>
    (t.targets s.request u.path).findSome? fun target =>
      (t.resolveExport target name).filter (· != external)

/-- A call by name alone: an imported name, else a top-level symbol of the file, else a name that a
wildcard import or the package makes visible. -/
def resolveBareCall (t : LinkTables) (u : LinkUnit) (name : Text) : Option Text :=
  match u.binding? name with
  | some b => some ((t.resolveImported u.path b.statement.request b.name).getD external)
  | none =>
    let own := (t.symbolNamed u.path name).filter fun q =>
      ((t.symbol? q).bind (·.container)).isNone
    own.or ((t.wildcardSymbol u name).or (t.packageSymbol u name))

def resolveInModule (t : LinkTables) (u : LinkUnit) (s : ImportStatement) (member : Text) : Option Text :=
  match t.targets s.request u.path with
  | [] => some external
  | targets => targets.findSome? fun target => t.resolveExport target member

def resolveInSymbol (t : LinkTables) (u : LinkUnit) (qualifier member : Text) : Option Text :=
  match u.binding? qualifier with
  | some b =>
    match t.resolveImported u.path b.statement.request b.name with
    | none => none
    | some owner => if owner == external then some external else t.memberOf owner member
  | none =>
    match (t.symbolNamed u.path qualifier).or (t.packageSymbol u qualifier) with
    | some owner => t.memberOf owner member
    | none => none

def receivers : List Text := ["this", "self"]

def resolveCall (t : LinkTables) (u : LinkUnit) (caller : SymbolRecord) (callee : Text) : Option Text :=
  match find? [unit '.'] callee with
  | none => t.resolveBareCall u callee
  | some i =>
    let qualifier := callee.take i
    let member := callee.drop (i + 1)
    if receivers.elem qualifier then
      match caller.container with
      | some c => if c.isEmpty then none else t.symbolNamed u.path (c ++ unit '.' :: member)
      | none => none
    else
      match u.imports.find? fun s => s.namespaceAlias == some qualifier with
      | some s => t.resolveInModule u s member
      | none => t.resolveInSymbol u qualifier member

def edge? (t : LinkTables) (u : LinkUnit) (c : CallRecord) : Option (Text × Text) := do
  let name ← c.caller
  let caller ← t.symbol? name
  let callee ← t.resolveCall u caller c.callee
  return (name, callee)

def calleesOf (edges : List (Text × Text)) : List (Text × List Text) :=
  ((edges.map (·.1)).eraseDups).map fun caller =>
    (caller, sortedSet ((edges.filter fun e => e.1 == caller).map (·.2)))

end Calls

def link (t : LinkTables) (u : LinkUnit) : LinkedFile :=
  { imports := u.imports.flatMap (t.linkImport u.path)
    callees := calleesOf (u.calls.filterMap (t.edge? u)) }

end LinkTables
end AnnotationIndex
