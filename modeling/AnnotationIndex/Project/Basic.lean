import AnnotationIndex.Batch
import AnnotationIndex.Index.Document
import AnnotationIndex.Log
import AnnotationIndex.Membership.Scan
import AnnotationIndex.Outline.Extractor
import AnnotationIndex.Index.Assembly
import AnnotationIndex.Path

/-!
A project: a directory with its settings and extractors. Its index is built from the files that belong to it.
-/
namespace AnnotationIndex
open Text

/-- The extractors for the files of a project: those of the library unless others are given. -/
class ProjectExtractors where
  all : List Extractor

instance : ProjectExtractors := ⟨Extractor.builtIn⟩

structure Project where
  root : Text
  settings : Configuration
  [extractors : ProjectExtractors]

inductive ProjectFault where
  | cancelled
  | scan (fault : ScanFault)
  | ignored (fault : IgnoreFault)
  | disk (fault : DiskFault)
  | reserved (r : ReservedNamespace)
  | incompatible (fault : DocumentFault)
  | nothingToSave

namespace ProjectFault

def message : ProjectFault → Text
  | cancelled => Batch.cancelledText
  | scan fault => fault.message
  | ignored fault => fault.message
  | disk fault => fault.message
  | reserved r => r.message
  | incompatible fault => fault.message
  | nothingToSave => "Nothing to save: no index has been built or loaded"

def code? : ProjectFault → Option Code
  | cancelled => some .cancelled
  | incompatible _ => some .incompatibleCache
  | nothingToSave => some .incompatibleCache
  | _ => none

end ProjectFault

/-- Work on a project, with the log lines that it leaves even where it fails. -/
abbrev Work (α : Type) := ExceptT ProjectFault (StateM (List LogLine)) α

namespace Work

def say (level : LogLevel) (source : String) (message : Text) : Work Unit :=
  modify (· ++ [LogLine.of level (Logger.plain.child source) message])

def sayTimed (level : LogLevel) (source : String) (message : Text) : Work Unit :=
  modify (· ++ [{ LogLine.of level (Logger.plain.child source) message with timed := true }])

def check {ε α : Type} (wrap : ε → ProjectFault) (r : Except ε α) : Work α :=
  match r with
  | .ok a => return a
  | .error e => throw (wrap e)

def goOn (cancelled : Bool) : Work Unit := if cancelled then throw .cancelled else return ()

end Work

def ProjectIndex.countSeverity (r : ProjectIndex) (s : Severity) : Nat :=
  (r.files.values.flatMap fun f => f.diagnostics.getD []).countP fun d => d.severity = s

namespace Project
open Work

def rules (p : Project) : IndexRules := ⟨p.extractors.all, p.settings.annotations⟩

def cacheFile (p : Project) : Text := Path.resolve p.root p.settings.cachePath

def read? (p : Project) (disk : Disk) (path : Text) : Except DiskFault (Option Text) :=
  disk.read? (ProjectPath.toPath p.root path)

def readFile (p : Project) (disk : Disk) (path : Text) : Except DiskFault Text := do
  match ← p.read? disk path with
  | some t => return t
  | none => throw (.missing (ProjectPath.toPath p.root path))

def indexFile (p : Project) (disk : Disk) (path : Text) : Work IndexedFile := do
  let text ← check .disk (p.readFile disk path)
  check .reserved (IndexedFile.ofText p.rules path text)

def sayCounts (r : ProjectIndex) : Work Unit := do
  let errors := r.countSeverity .error
  let warnings := r.countSeverity .warning
  if 0 < errors + warnings then
    say .info "index" (ofNat errors ++ " error and " ++ ofNat warnings ++ " warning diagnostics")

def build (p : Project) (disk : Disk) (cancelled : Bool) : Work ProjectIndex := do
  let paths ← check .scan (scan disk p.root p.settings)
  say .debug "index" ("Scanned " ++ ofNat paths.length ++ " files")
  goOn cancelled
  let indexed ← paths.mapM (p.indexFile disk)
  sayTimed .debug "index" ("Indexed " ++ ofNat indexed.length ++ " files")
  let r := ProjectIndex.assemble indexed fun _ => true
  sayTimed .debug "index" ("Linked " ++ ofNat r.symbols.length ++ " symbols")
  sayCounts r
  return r

def filter (p : Project) (disk : Disk) : Except DiskFault ProjectFilter :=
  (IgnoreRules.load disk p.root).map (ProjectFilter.ofRules p.settings)

end Project

/-- The recorded files whose text is no longer what was indexed, sorted. `hashOf` tells the hash of a file as it is
now, and nothing for a file that is gone. -/
def ProjectIndex.staleFiles {ε : Type} (r : ProjectIndex) (hashOf : Text → Except ε (Option Text)) :
    Except ε (List Text) := do
  let changed ← r.contentHashes.filterM fun e => return (← hashOf e.1) != some e.2
  return (changed.map (·.1)).mergeSort Text.le

def Project.hashOf (p : Project) (disk : Disk) (path : Text) : Except DiskFault (Option Text) :=
  (p.read? disk path).map fun t => t.map contentHash

end AnnotationIndex
