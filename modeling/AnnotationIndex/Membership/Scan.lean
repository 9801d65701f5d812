import AnnotationIndex.Membership.GlobReader
import AnnotationIndex.Membership.ProjectFilter
import AnnotationIndex.Text.Order

/-!
Finding the files of a project in its directory. A search starts in the directory that an include glob names before
its first wildcard. It does not enter a directory below it that an exclude glob matches, provided that this glob ends
in `/**` or its last segment is plain text.
-/
namespace AnnotationIndex
open Text

/-- An include glob as a search: where it starts, and whether it names a single file. -/
structure Search where
  glob : Text
  base : Text
  single : Bool
  dotted : Bool

/-- A glob of paths that no search finds, and whether no search enters a directory that it matches. -/
structure Barrier where
  glob : Text
  shuts : Bool

inductive ScanFault where
  | emptyGlob
  | ignored (fault : IgnoreFault)
  | unreadable (fault : DiskFault)
  deriving DecidableEq

def ScanFault.message : ScanFault → Text
  | emptyGlob => "Patterns must be a string (non empty) or an array of strings"
  | ignored fault => fault.message
  | unreadable fault => fault.message

namespace Search
open GlobReader

def joinSlashes : Text → Text
  | [] => []
  | u :: rest => u :: squeeze rest
where
  squeeze : Text → Text
    | [] => []
    | [u] => [u]
    | u :: v :: rest => if u == Path.slash && v == Path.slash then squeeze (v :: rest) else u :: squeeze (v :: rest)

/-- A mark that takes back, and not the start of a group. -/
def takesBack (t : Text) : Bool := t.head? == some (unit '!') && (t.drop 1).head? != some (unit '(')

def ofText (reader : GlobReader) (t : Text) : Search := ⟨t, reader.base t, isSingle t, startsWith t (ofString "./")⟩

/-- Searches that start in subdirectories join one that starts at the top. -/
def merge (ss : List Search) : List Search :=
  if ss.any fun s => !s.single && s.base == currentDirectory then
    ss.map fun s => if s.single then s else { s with base := currentDirectory, dotted := false }
  else ss

def directories (path : Text) : List Text :=
  let names := (splitOn Path.slash path).dropLast
  (List.range names.length).map fun i => join [Path.slash] (names.take (i + 1))

def entered (s : Search) (path : Text) : List Text :=
  if s.single then []
  else if s.base == currentDirectory then directories path
  else (directories path).filter (Disk.isUnder s.base)

def looksAt (s : Search) (path : Text) : Bool := s.single || s.base == currentDirectory || Disk.isUnder s.base path

def blockedBy (s : Search) (file : Text) : Bool :=
  if s.single then Disk.isUnder file s.glob else s.base == file || Disk.isUnder file s.base

def fault (s : Search) (root : Text) : DiskFault :=
  if s.single then .unreached (Path.resolve root s.glob) else .unlisted (Path.resolve root s.base)

def finds (reader : GlobReader) (s : Search) (barriers : List Barrier) (path : Text) : Bool :=
  s.looksAt path && reader.reads s.glob path && !(barriers.any fun b => reader.reads b.glob path) &&
    !((s.entered path).any fun d => barriers.any fun b => b.shuts && reader.reads b.glob d)

end Search

def Barrier.ofText (t : Text) : Barrier := ⟨t, endsWith t (ofString "/**") || GlobReader.isSingle (Path.baseName t)⟩

namespace Configuration
open Search
variable (reader : GlobReader)

def expanded (globs : List Text) : List Text :=
  (globs.flatMap reader.expand).filter (fun t => !t.isEmpty) |>.map joinSlashes

def searches (c : Configuration) : List Search :=
  merge (((expanded reader c.included).filter fun t => !takesBack t).map (Search.ofText reader))

/-- What no search finds: the exclude globs, and the include globs that take back. -/
def barred (c : Configuration) : List Barrier :=
  ((expanded reader c.included).filter takesBack ++ expanded reader c.excluded).map fun t =>
    Barrier.ofText (if takesBack t then t.drop 1 else t)

/-- The files that the searches for a project find, and what each is shown as. A backslash in a name is read as a
slash. -/
def found (c : Configuration) (paths : List Text) : List Text :=
  let searches := c.searches reader
  let barred := c.barred reader
  (paths.filter fun p => searches.any fun s => s.finds reader barred p).map fun p =>
    replaceUnit (unit '\\') Path.slash
      (if (searches.filter fun s => s.finds reader barred p).all (·.dotted) then ofString "./" ++ p else p)

end Configuration

def scanWith (reader : GlobReader) (disk : Disk) (root : Text) (c : Configuration) : Except ScanFault (List Text) := do
  let rules ← (IgnoreRules.load disk root).mapError .unreadable
  if c.included.any (·.isEmpty) then throw .emptyGlob
  if let some s := (c.searches reader).find? fun s => (disk.pathsUnder root).any s.blockedBy then
    throw (.unreadable (s.fault root))
  let kept ← (c.found reader (disk.pathsUnder root)).filterM fun p => ((rules.ignores p).map (!·)).mapError .ignored
  return (kept.filter (· != c.cachePath)).mergeSort Text.le

def scan (disk : Disk) (root : Text) (c : Configuration) : Except ScanFault (List Text) :=
  scanWith .standard disk root c

end AnnotationIndex
