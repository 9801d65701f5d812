import AnnotationIndex.Text.Search

/-!
Comment delimiters of a family of languages.
-/
namespace AnnotationIndex

structure BlockDelimiter where
  opening : Text
  closing : Text
  deriving DecidableEq

/-- Markers are tried in order, so a longer marker stands before its own beginnings. -/
structure CommentSyntax where
  line : List Text
  block : List BlockDelimiter
  deriving DecidableEq

namespace CommentSyntax

/-- The first marker that a line starts with; the empty one marks nothing. -/
def marker? (s : CommentSyntax) (t : Text) : Option Text :=
  (s.line.find? fun m => Text.startsWith t m).filter fun m => !m.isEmpty

def slashStarBlocks : List BlockDelimiter := [⟨"/**", "*/"⟩, ⟨"/*", "*/"⟩]

def slashes : CommentSyntax := ⟨["///", "//!", "//"], slashStarBlocks⟩

def hash : CommentSyntax := ⟨["#"], []⟩

/-- What files without a structural extractor are read with. -/
def general : CommentSyntax := ⟨["///", "//!", "//", "#", "--"], slashStarBlocks⟩

end CommentSyntax
end AnnotationIndex
