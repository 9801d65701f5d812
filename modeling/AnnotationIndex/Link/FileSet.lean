import AnnotationIndex.Path
import AnnotationIndex.Text.Order

/-!
The set of a project's files, seen by directory.
-/
namespace AnnotationIndex
open Text

structure FileSet where
  paths : List Text

namespace FileSet

def has (s : FileSet) (path : Text) : Bool := s.paths.elem path

def inDirectory (s : FileSet) (dir : Text) : List Text :=
  sortedSet (s.paths.filter fun p => Path.directory p == dir)

def directories (s : FileSet) : List Text := sortedSet (s.paths.map Path.directory)

def firstOf (s : FileSet) (candidates : List Text) : List Text := (candidates.find? s.has).toList

end FileSet
end AnnotationIndex
