import AnnotationIndex.CommandLine.Run

/-!
The program: it reads the files that its arguments make it look at, runs them, shows what there is to show and writes
the files that have changed.
-/
namespace AnnotationIndex.Program
open Text

/-- The file at a path, or all files below a directory there. Files that are not UTF-8 are left out. -/
partial def readPlace (path : String) : IO (List (Text × Text)) := do
  let place ← try IO.FS.realPath path catch _ => return []
  if ← place.isDir then
    let entries ← place.readDir
    let files ← entries.toList.mapM fun e => readPlace (path ++ "/" ++ e.fileName)
    return files.flatten
  else
    try
      let t ← IO.FS.readFile path
      return [(ofString path, ofString t)]
    catch _ => return []

def readDisk (places : List Text) : IO Disk := do
  let files ← places.mapM fun p => readPlace p.toString
  return ⟨files.flatten⟩

/-- Writes a file through a neighbour, so that nobody reads half of it. -/
def writeFile (path text : Text) : IO Unit := do
  IO.FS.createDirAll (Path.directory path).toString
  let draft := path.toString ++ ".tmp"
  IO.FS.writeFile draft text.toString
  IO.FS.rename draft path.toString

def writeDisk (before after : Disk) : IO Unit :=
  (after.changes before).forM fun f => writeFile f.1 f.2

def answer (t : Text) : IO Unit := do
  IO.println t.toString
  (← IO.getStdout).flush

def say (started : Nat) : Shown → IO Unit
  | .answer t => answer t
  | .note l => do
    let now ← IO.monoMsNow
    IO.eprintln (l.text (ofNat (now - started))).toString
  | .complaint t => IO.eprintln t.toString

def reportText : WatchReport → Shown
  | .updated u => .answer (Display.updateSummary u.reindexed u.deleted u.relinked)
  | .failed f => .note (LogLine.of .error .plain ("Watcher error: " ++ f.message))
  | .troubled reason => .note (LogLine.of .error .plain ("Watcher error: " ++ reason))

/-- Looks for changes again and again, and hands them over once a look finds no more. -/
partial def watchFiles (places : List Text) (wait : UInt32) (seen : Disk) (w : Watch) (s : Store) : IO Unit := do
  IO.sleep wait
  let disk ← readDisk places
  let changed := (disk.differences seen).filter fun p => !Watch.ignores w.root p
  let s := { s with disk := disk }
  if changed.isEmpty then
    let (w, after) := w.expire.settle s
    w.reports.forM fun r => say 0 (reportText r)
    writeDisk disk after.disk
    watchFiles places wait after.disk { w with reports := [] } after
  else
    let w := changed.foldl (fun w p => (w.notice p).toOption.getD w) w
    watchFiles places wait disk w s

def startWatch (places : List Text) (cwd : Text) (disk : Disk) (o : CommandOptions) : IO Unit := do
  let .ok project := o.project disk cwd | return
  let (_, s) := Store.load (Store.opened project disk)
  let .ok w := Watch.start project disk | return
  answer "✓ Watching for file changes..."
  let wait := ((o.debounce.bind leadingInt?).filter (0 ≤ ·)).getD OptionUsage.standardDebounce
  watchFiles places (max 1 wait).toNat.toUInt32 disk w s

def run (args : List String) : IO UInt32 := do
  let started ← IO.monoMsNow
  let cwd := ofString (← IO.currentDir).toString
  let args := args.map ofString
  let invocation := Invocation.ofArguments args
  let places := invocation.places cwd
  let disk ← readDisk places
  let outcome := Outcome.ofArguments disk cwd args
  outcome.shown.forM (say started)
  writeDisk disk outcome.disk
  if let (.run .watch _ o, 0) := (invocation, outcome.exitCode) then startWatch places cwd outcome.disk o
  return outcome.exitCode.toUInt32

end AnnotationIndex.Program

def main (args : List String) : IO UInt32 := AnnotationIndex.Program.run args
