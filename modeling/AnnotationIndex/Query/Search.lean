import AnnotationIndex.Index.Basic
import AnnotationIndex.Text.Case
import AnnotationIndex.Text.Order
import AnnotationIndex.Text.Search

/-!
Searching an index for a piece of text: in the names and purposes of its symbols, then in the paths and purposes of its
files, both in the order of their keys. Where case does not count, the piece and the text are compared in lower case.
-/
namespace AnnotationIndex
open Text

inductive SearchMatch where
  | symbol (qualifiedName name owner : Text) (purpose : Option Text)
  | file (path : Text) (purpose : Option Text)
  deriving DecidableEq

structure SearchResult where
  shown : List SearchMatch
  total : Nat
  truncated : Bool
  deriving DecidableEq

namespace ProjectIndex

def fold (caseSensitive : Bool) (t : Text) : Text := if caseSensitive then t else lower t

def hits (caseSensitive : Bool) (pattern t : Text) : Bool :=
  contains (fold caseSensitive t) (fold caseSensitive pattern)

def symbolMatch? (caseSensitive : Bool) (pattern qualifiedName : Text) (s : SymbolRecord) : Option SearchMatch :=
  let hit := hits caseSensitive pattern
  if hit s.name || hit s.displayName || s.purpose.any hit then
    some (.symbol qualifiedName s.displayName s.file s.purpose)
  else none

def fileMatch? (caseSensitive : Bool) (pattern path : Text) (f : FileRecord) : Option SearchMatch :=
  let hit := hits caseSensitive pattern
  if hit path || f.purpose.any hit then some (.file path f.purpose) else none

def searchMatches (r : ProjectIndex) (caseSensitive : Bool) (pattern : Text) : List SearchMatch :=
  ((sortByKey r.symbols).filterMap fun (q, s) => symbolMatch? caseSensitive pattern q s) ++
    (sortByKey r.files).filterMap fun (p, f) => fileMatch? caseSensitive pattern p f

/-- A search; no limit below zero shows anything. -/
def search (r : ProjectIndex) (caseSensitive : Bool) (pattern : Text) (limit : Int) : SearchResult :=
  let found := r.searchMatches caseSensitive pattern
  ⟨found.take limit.toNat, found.length, limit.toNat < found.length⟩

end ProjectIndex
end AnnotationIndex
