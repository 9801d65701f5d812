import AnnotationIndex.Index.Restore
import AnnotationIndex.Project.Basic

/-!
Updating an index after changes. Only changed files are read again. Linked again are those files, the files that import
a changed one (through files that export again what they import), the files of its package, and the files whose imports
now name other files.
-/
namespace AnnotationIndex
open Text

inductive FileChange where
  | fresh (path : Text)
  | gone (path : Text)
  deriving DecidableEq

structure Updated where
  index : ProjectIndex
  reindexed : List Text
  deleted : List Text
  relinked : List Text

def Updated.changes (u : Updated) : Bool := !(u.reindexed.isEmpty && u.deleted.isEmpty)

namespace ProjectIndex

def reexports (r : ProjectIndex) (f : FileRecord) : Bool :=
  f.exports.any fun row =>
    row.source.isSome || !(r.symbols.has (f.path ++ unit ':' :: row.binding.getD row.name))

def importersOf (r : ProjectIndex) (path : Text) : List Text :=
  ((Table.get? r.files path).map (·.importedBy)).getD []

def passesOn (r : ProjectIndex) (path : Text) : Bool := (Table.get? r.files path).any r.reexports

/- Breadth first through files that export again: `seen` are the files once queued, `reached` the importers found.
Each file is queued once, so `left` is their number. -/
def reachFrom (r : ProjectIndex) : (left : Nat) → (seen queue reached : List Text) → List Text
  | 0, _, _, reached => reached
  | _ + 1, _, [], reached => reached
  | left + 1, seen, path :: queue, reached =>
    let importers := r.importersOf path
    let next := importers.filter fun i => !seen.elem i && r.passesOn i
    reachFrom r left (seen ++ next) (queue ++ next)
      (importers.foldl (fun found i => if found.elem i then found else found ++ [i]) reached)

def reach (r : ProjectIndex) (changed : List Text) : List Text :=
  reachFrom r (r.files.length + changed.length) changed changed []

end ProjectIndex

/-- The files of an updated project before they are linked. -/
structure UpdateUnits where
  previous : ProjectIndex
  units : List IndexedFile
  reindexed : List Text
  deleted : List Text

namespace UpdateUnits

def unit? (u : UpdateUnits) (path : Text) : Option IndexedFile := u.units.find? fun f => f.path == path

def tables (u : UpdateUnits) : LinkTables := ⟨u.units.map IndexedFile.linkUnit⟩

def changed (u : UpdateUnits) : List Text := u.reindexed ++ u.deleted

def languageOf (u : UpdateUnits) (path : Text) : Text :=
  match u.unit? path with
  | some f => f.file.language
  | none => ((Table.get? u.previous.files path).map (·.language)).getD []

def siblings (u : UpdateUnits) : List Text :=
  u.changed.flatMap fun path =>
    let language := u.languageOf path
    if LinkTables.packageLanguages.elem language then
      (u.tables.files.inDirectory (Path.directory path)).filter fun s =>
        ((u.unit? s).map (·.file.language)) == some language
    else []

def isRetargeted (u : UpdateUnits) (f : IndexedFile) : Bool :=
  (StatementTargets.ofEntries f.file.imports).any fun s =>
    u.tables.targets s.statement.request f.path != s.targets

def affected (u : UpdateUnits) : List Text :=
  let known := u.reindexed ++ u.previous.reach u.changed ++ u.siblings
  known ++ ((u.units.filter fun f => !known.elem f.path && u.isRetargeted f).map (·.path))

end UpdateUnits

namespace Project
open Work

def changeOf (p : Project) (disk : Disk) (filter : ProjectFilter) (previous : ProjectIndex) (path : Text) :
    Except ProjectFault (Option FileChange) := do
  let accepted ← (filter.accepts path).mapError .ignored
  let text ← if accepted then (p.read? disk path).mapError .disk else pure none
  match text with
  | none => return if previous.files.has path || Table.isInherited path then some (.gone path) else none
  | some t => return if Table.get? previous.contentHashes path == some (contentHash t) then none else some (.fresh path)

def candidates (p : Project) (changed : List Text) : List Text := sortedSet (changed.map (ProjectPath.ofPath p.root))

def update (p : Project) (disk : Disk) (previous : ProjectIndex) (changed : List Text) (cancelled : Bool) :
    Work Updated := do
  let filter ← check .disk (p.filter disk)
  let found ← (p.candidates changed).filterMapM fun path => do
    goOn cancelled
    check id (p.changeOf disk filter previous path)
  let reindexed := found.filterMap fun
    | .fresh path => some path
    | .gone _ => none
  let deleted := found.filterMap fun
    | .gone path => some path
    | .fresh _ => none
  if found.isEmpty then return ⟨previous, [], [], []⟩
  let fresh ← reindexed.mapM (p.indexFile disk)
  let kept := (IndexedFile.restoreAll previous).filter fun f => !(reindexed ++ deleted).elem f.path
  let u : UpdateUnits := ⟨previous, kept ++ fresh, reindexed, deleted⟩
  let affected := u.affected
  let r := ProjectIndex.assemble u.units affected.elem
  let relinked := sortedSet (affected.filter fun path => (u.unit? path).isSome)
  say .debug "update" ("Reindexed " ++ ofNat reindexed.length ++ ", deleted " ++ ofNat deleted.length ++
    ", relinked " ++ ofNat relinked.length ++ " files")
  sayCounts r
  return ⟨r, reindexed, deleted, relinked⟩

end Project
end AnnotationIndex
