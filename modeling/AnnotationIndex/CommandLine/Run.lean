import AnnotationIndex.CommandLine.Arguments
import AnnotationIndex.Configuration.Load
import AnnotationIndex.Project.Watch
import AnnotationIndex.Query.Display
import AnnotationIndex.Query.Response

/-!
Running commands on the files that are there: what is shown, in order, the exit code, and the files afterwards.
-/
namespace AnnotationIndex
open Text

inductive Shown where
  | answer (t : Text)
  | note (l : LogLine)
  | complaint (t : Text)
  deriving DecidableEq

structure Outcome where
  shown : List Shown
  exitCode : Nat
  disk : Disk

inductive CommandFault where
  | unknownQuery (name : Text)
  | unnamedQuery (op : QueryOperation)
  | invalidLimit (t : Text)
  | settings (fault : LoadFault)
  | project (fault : ProjectFault)

def CommandFault.message : CommandFault → Text
  | unknownQuery name =>
    "Unknown query type \"" ++ name ++ "\". Expected one of: " ++
      join ", " (QueryOperation.all.map QueryOperation.name)
  | unnamedQuery op => "Query type \"" ++ op.name ++ "\" needs a name"
  | invalidLimit t => "Invalid --limit: " ++ t
  | settings fault => fault.message
  | project fault => fault.message

namespace CommandOptions

def directory (o : CommandOptions) (cwd : Text) : Text := Path.resolve cwd (o.root.getD cwd)

def level (o : CommandOptions) : LogLevel := if o.verbose then .debug else if o.quiet then .warn else .info

def project (o : CommandOptions) (disk : Disk) (cwd : Text) : Except LoadFault Project := do
  let root := o.directory cwd
  let settings ← Configuration.load disk root o.config
  let rules := if o.strict then { settings.annotations with mode := .strict } else settings.annotations
  return ⟨root, { settings with annotations := rules }⟩

end CommandOptions

def leadingInt? (t : Text) : Option Int :=
  let t := t.dropWhile isBlank
  let negative := t.head? == some (unit '-')
  let digits := (if negative || t.head? == some (unit '+') then t.drop 1 else t).takeWhile isDigit
  if digits.isEmpty then none
  else
    let n : Nat := digits.foldl (fun n u => n * 10 + (u.toNat - 48)) 0
    some (if negative then -n else n)

structure StatedQuery where
  op : QueryOperation
  target : Text
  limit : Option Int

namespace StatedQuery

def limitOf (o : CommandOptions) : Except CommandFault (Option Int) :=
  match o.limit with
  | none => .ok none
  | some t =>
    match leadingInt? t with
    | some n => if n < 0 then .error (.invalidLimit t) else .ok (some n)
    | none => .error (.invalidLimit t)

def ofOperands (operands : List Text) (o : CommandOptions) : Except CommandFault StatedQuery := do
  let name := operands.headD []
  let some op := QueryOperation.ofName? name | throw (.unknownQuery name)
  if op != .stats && operands[1]?.isNone then throw (.unnamedQuery op)
  return ⟨op, operands.getD 1 [], ← limitOf o⟩

end StatedQuery

structure CommandAnswer where
  texts : List Text
  exitCode : Nat

namespace CommandAnswer

def ok (t : Text) : CommandAnswer := ⟨[t], 0⟩

def ofResult (json : Bool) (result : QueryResult QueryValue) : CommandAnswer :=
  let stale := match result with
    | .found _ (p :: rest) => ["(stale: " ++ join ", " (p :: rest) ++ ")"]
    | _ => []
  let exitCode := match result with
    | .found _ _ => 0
    | _ => 1
  if json then ⟨[Json.spread (QueryResponse.ofResult result).toJson], exitCode⟩
  else ⟨stale ++ [Display.resultText result], exitCode⟩

end CommandAnswer

namespace Command

def indexJson (r : ProjectIndex) : Json :=
  Json.fields [
    ("files", some (Json.ofNat r.files.length)),
    ("symbols", some (Json.ofNat r.symbols.length)),
    ("domains", some (Json.ofNat r.domains.length)),
    ("provenance", some r.provenance.toJson),
    ("constraints", some r.locks.toJson)]

def updateJson (u : StoreUpdate) : Json :=
  Json.fields [
    ("reindexed", some (Json.texts u.reindexed)),
    ("deleted", some (Json.texts u.deleted)),
    ("relinked", some (Json.texts u.relinked))]

def runIndex (json : Bool) : StoreWork CommandAnswer := do
  let snapshot ← Store.build false
  Store.save
  return .ok (if json then Json.spread (indexJson snapshot.index) else Display.indexSummary snapshot.index)

def runUpdate (paths : List Text) (json : Bool) : StoreWork CommandAnswer := do
  let _ ← Store.loadOrBuild false
  let u ← Store.update paths false
  Store.save
  return .ok (if json then Json.spread (updateJson u) else Display.updateSummary u.reindexed u.deleted u.relinked)

def runQuery (q : StatedQuery) (bestEffort json : Bool) : StoreWork CommandAnswer := do
  let snapshot ← Store.loadOrBuild false
  let s ← get
  let stated := s.project.settings.query
  let settings := { stated with bestEffort := stated.bestEffort || bestEffort }
  match snapshot.index.staleFiles (s.project.hashOf s.disk) with
  | .error f => throw (.disk f)
  | .ok changed => return .ofResult json (snapshot.index.query settings changed q.op q.target q.limit)

def runWatch (o : CommandOptions) : StoreWork CommandAnswer := do
  let s ← get
  let snapshot ← Store.loadOrBuild false
  Store.save
  let wait := (o.debounce.bind leadingInt?).filter (0 ≤ ·)
  return ⟨[[], "ACP Watch Mode", List.replicate 50 (unit '─'), "Root:     " ++ s.project.root,
    "Cache:    " ++ s.project.cacheFile,
    "Debounce: " ++ Display.ofInt (wait.getD OptionUsage.standardDebounce) ++ "ms", "Press Ctrl+C to stop", [],
    Display.indexSummary snapshot.index], 0⟩

def work (c : Command) (operands : List Text) (o : CommandOptions) : Except CommandFault (StoreWork CommandAnswer) :=
  match c with
  | .index => .ok (runIndex o.json)
  | .update => .ok (runUpdate operands o.json)
  | .query => (StatedQuery.ofOperands operands o).map fun q => runQuery q o.bestEffort o.json
  | .watch => .ok (runWatch o)

/- Queries are quiet unless they are told to speak. -/
def level (c : Command) (o : CommandOptions) : LogLevel :=
  if c = .query && !o.verbose then .warn else o.level

end Command

/-- The directory, and a file outside of it, that arguments make the program look at. -/
def Invocation.places (cwd : Text) : Invocation → List Text
  | .run _ _ o =>
    let root := o.directory cwd
    root :: (o.config.toList.map (Path.resolve root)).filter fun p => !Disk.isUnder root p
  | _ => []

namespace Disk

def changes (d other : Disk) : List (Text × Text) := d.files.filter fun f => other.text? f.1 != some f.2

def differences (d other : Disk) : List Text :=
  sortedSet ((d.changes other).map (·.1) ++ (other.changes d).map (·.1))

end Disk

namespace Outcome

/-- A fault is logged whatever the level. -/
def failed (disk : Disk) (notes : List Shown) (f : CommandFault) : Outcome :=
  ⟨notes ++ [.note (LogLine.of .error .plain f.message)], 1, disk⟩

def notes (level : LogLevel) (log : List LogLine) : List Shown :=
  (log.filter fun l => level.shows l.level).map .note

def ofCommand (disk : Disk) (cwd : Text) (c : Command) (operands : List Text) (o : CommandOptions) : Outcome :=
  match c.work operands o with
  | .error f => failed disk [] f
  | .ok work =>
    match o.project disk cwd with
    | .error f => failed disk [] (.settings f)
    | .ok project =>
      let (answer, s) := work (Store.opened project disk)
      let notes := notes (c.level o) s.log
      match answer with
      | .error f => failed s.disk notes (.project f)
      | .ok a => ⟨notes ++ a.texts.map .answer, a.exitCode, s.disk⟩

def ofArguments (disk : Disk) (cwd : Text) (args : List Text) : Outcome :=
  match Invocation.ofArguments args with
  | .version => ⟨[.answer Program.version], 0, disk⟩
  | .help page => ⟨[.answer page.text], 0, disk⟩
  | .helpless => ⟨[.complaint HelpPage.ofProgram.text], 1, disk⟩
  | .misused fault => ⟨[.complaint fault.message], 1, disk⟩
  | .run c operands o => ofCommand disk cwd c operands o

end Outcome
end AnnotationIndex
