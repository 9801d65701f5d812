import AnnotationIndex.Index.Assembly

/-!
Restoring: an indexed file from what the index records of it. Import statements are not stored; they
are read off the import entries.
-/
namespace AnnotationIndex
open Text

structure StatementTargets where
  statement : ImportStatement
  targets : List Text

namespace StatementTargets

def sameStatement (a b : ImportEntry) : Bool :=
  a.line == b.line && a.specifier == b.specifier &&
    a.namespaceAlias.getD [] == b.namespaceAlias.getD [] && a.wildcard.getD false == b.wildcard.getD false

def targetsOf (entries : List ImportEntry) : List Text :=
  (entries.map (·.target)).filter (· != external)

def ofGroup (first : ImportEntry) (rest : List ImportEntry) : StatementTargets :=
  ⟨{ specifier := first.specifier, line := first.line
     names := first.names.map fun n => ⟨n.name, n.binding⟩
     namespaceAlias := first.namespaceAlias
     wildcard := first.wildcard.getD false }, targetsOf (first :: rest)⟩

/- Entries go on with a statement as long as they share its shape and none repeats a target. -/
def grow (first : ImportEntry) (taken : List ImportEntry) : List ImportEntry → List StatementTargets
  | [] => [ofGroup first taken]
  | e :: rest =>
    if sameStatement first e && !((first :: taken).map (·.target)).elem e.target then
      grow first (taken ++ [e]) rest
    else ofGroup first taken :: grow e [] rest

def ofEntries : List ImportEntry → List StatementTargets
  | [] => []
  | e :: rest => grow e [] rest

end StatementTargets

/-- A recorded name that is no key of the index but of every record. -/
structure InheritedName where
  name : Text
  deriving DecidableEq

namespace InheritedName

def message (n : InheritedName) : Text :=
  if n.name == Table.droppedKey then "Cannot read properties of undefined (reading 'flatMap')"
  else
    let shown := if n.name == ("constructor" : Text) then ofString "Object" else n.name
    "function " ++ shown ++ "() \x7b [native code] \x7d could not be cloned."

end InheritedName

namespace IndexedFile

def ofRecord (r : ProjectIndex) (path hash : Text) (f : FileRecord) : IndexedFile :=
  { path, hash, file := f
    symbols := f.symbols.filterMap (Table.get? r.symbols)
    imports := (StatementTargets.ofEntries f.imports).map (·.statement) }

def restore? (r : ProjectIndex) (path : Text) : Option IndexedFile := do
  let f ← Table.get? r.files path
  let hash ← Table.get? r.contentHashes path
  return ofRecord r path hash f

/-- As `restore?`, for any text: a name that every record has stands for no file and is refused. -/
def restore (r : ProjectIndex) (path : Text) : Except InheritedName (Option IndexedFile) :=
  if (Table.get? r.files path).isNone && Table.isInherited path then .error ⟨path⟩
  else .ok (restore? r path)

def restoreAll (r : ProjectIndex) : List IndexedFile := r.files.keys.filterMap (restore? r)

end IndexedFile
end AnnotationIndex
