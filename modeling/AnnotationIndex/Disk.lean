import AnnotationIndex.Path
import AnnotationIndex.Text.Order

/-!
The files that a project and its commands see: texts under absolute paths. A directory exists as long as it holds
a file, and so do the directories above the working directory.
-/
namespace AnnotationIndex

structure Disk where
  files : List (Text × Text)

/-- Why a file cannot be read, found or written: there is none, a directory stands there, or a file where a directory is
needed. -/
inductive DiskFault where
  | missing (path : Text)
  | directory
  | underFile (path : Text)
  | unreached (path : Text)
  | unlisted (path : Text)
  | blocked (path : Text)
  | replacesDirectory (path : Text)
  deriving DecidableEq

def DiskFault.message : DiskFault → Text
  | missing path => "ENOENT: no such file or directory, open '" ++ path ++ "'"
  | directory => "EISDIR: illegal operation on a directory, read"
  | underFile path => "ENOTDIR: not a directory, open '" ++ path ++ "'"
  | unreached path => "ENOTDIR: not a directory, lstat '" ++ path ++ "'"
  | unlisted path => "ENOTDIR: not a directory, scandir '" ++ path ++ "'"
  | blocked path => "EEXIST: file already exists, mkdir '" ++ path ++ "'"
  | replacesDirectory path => "EISDIR: illegal operation on a directory, rename '" ++ path ++ "'"

namespace Disk

def text? (d : Disk) (path : Text) : Option Text := d.files.lookup path

def isUnder (directory path : Text) : Bool := Text.startsWith path (directory ++ [Path.slash])

def isDirectory (d : Disk) (path : Text) : Bool := d.files.any fun f => isUnder path f.1

def has (d : Disk) (path : Text) : Bool := (d.text? path).isSome || d.isDirectory path

def read? (d : Disk) (path : Text) : Except DiskFault (Option Text) :=
  match d.text? path with
  | some t => .ok (some t)
  | none =>
    if d.isDirectory path then .error .directory
    else if d.files.any fun f => isUnder f.1 path then .error (.underFile path)
    else .ok none

def writable (d : Disk) (path : Text) : Except DiskFault Unit :=
  if d.isDirectory path then .error (.replacesDirectory path)
  else
    match d.files.find? fun f => isUnder f.1 path with
    | some f => .error (.blocked f.1)
    | none => .ok ()

def remove (d : Disk) (path : Text) : Disk := ⟨d.files.filter fun f => f.1 != path⟩

def write (d : Disk) (path text : Text) : Disk := ⟨(d.remove path).files ++ [(path, text)]⟩

/-- The paths of the files below a directory, seen from there. -/
def pathsUnder (d : Disk) (directory : Text) : List Text :=
  d.files.filterMap fun f =>
    if isUnder directory f.1 then some (f.1.drop (directory.length + 1)) else none

end Disk
end AnnotationIndex
