import AnnotationIndex.Glob.Match

/-!
How a search through directories reads globs. It reads them much as the filter of a project does, but for three
things: a group needs no kind, a bracket of plain text stands for that text as well, and `**` at the end also for
the directory itself.
-/
namespace AnnotationIndex
open Text

/-- A way to read globs: the globs without braces that a glob stands for, the directory in which the paths lie that
such a glob matches, and the paths themselves. -/
structure GlobReader where
  expand : Text → List Text
  base : Text → Text
  reads : Text → Text → Bool

namespace GlobReader

def withoutDot (t : Text) : Text := dropHead (ofString "./") t

section Patterns
open Pattern

def bracket : Pattern := "[" ++ run (notOneOf "[") ++ "]"

/-- Alternatives in brackets that belong to no group of a kind. -/
def choice : Pattern :=
  (atStart <|> one (notOneOf "!*+?@")) ++ "(" ++ run (notOneOf "(") ++ "|" ++ run (notOneOf "|") ++ ")"

def group : Pattern := one (oneOf "!*+?@") ++ "(" ++ run (notOneOf "(") ++ ")"

/-- A question mark that makes what stands before it optional. -/
def optional : Pattern := one (oneOf "].+)") ++ "?"

end Patterns

def hasBraces (t : Text) : Bool :=
  let inside := (t.dropWhile (· != unit '\x7b')).drop 1
  let body := inside.takeWhile (· != unit '\x7d')
  inside.elem (unit '\x7d') && (body.elem (unit ',') || contains body "..")

/-- Whether a glob is plain text, which names one file. -/
def isSingle (t : Text) : Bool :=
  !(t.any (Pattern.oneOf "*?\\") || t.head? == some (unit '!') || bracket.occursIn t || choice.occursIn t ||
    group.occursIn t || hasBraces t)

def currentDirectory : Text := ofString "."

/-- Whether a name can be that of the directory where a search starts. Of the wildcards a question mark is no
hindrance. -/
def isFixed (s : Text) : Bool :=
  isSingle (s.filter (· != unit '?')) && !group.occursIn s && !optional.occursIn s

def baseOf (t : Text) : Text :=
  let names := (splitOn Path.slash (withoutDot t)).dropLast.takeWhile isFixed
  if names.isEmpty then currentDirectory else join [Path.slash] names

/-- Whether the bracket whose inside starts here is plain text, without ranges and other signs. -/
def isPlainBracket (inside : Text) : Bool :=
  let text := inside.takeWhile (· != unit ']')
  !text.isEmpty && text.length < inside.length && !text.any (Pattern.oneOf "-*+?.^$\x7b\x7d(|)[/!\\")

/- `kinded` tells whether the unit before gives a group its kind; `left` bounds the units. -/
def spellFrom : (left : Nat) → (kinded : Bool) → Text → Text
  | 0, _, t => t
  | _ + 1, _, [] => []
  | left + 1, kinded, u :: rest =>
    if u == unit '\\' then u :: (rest.take 1 ++ spellFrom left false (rest.drop 1))
    else if u == unit '[' && isPlainBracket rest then
      let text := rest.takeWhile (· != unit ']')
      ofString "@(\\[" ++ text ++ ofString "\\]|[" ++ text ++ ofString "])" ++
        spellFrom left false (rest.drop (text.length + 1))
    else if u == unit '(' && !kinded && rest.elem (unit ')') then ofString "@(" ++ spellFrom left false rest
    else u :: spellFrom left (Glob.SegmentPart.isGroupKind u) rest

/-- The glob with a kind for every group, and with brackets of plain text beside that text. -/
def spell (t : Text) : Text := spellFrom t.length false t

/-- Whether a glob matches a directory besides what lies in it: it ends in `**`, and no star ends the segment before. -/
def coversDirectory (ss : List Text) : Bool :=
  ss.getLast? == some (ofString "**") && ss.dropLast.getLast?.any fun s => s.getLast? != some (unit '*')

def readsPath (t path : Text) : Bool :=
  let ss := Glob.simplify (Glob.segments (spell (withoutDot t)))
  let matchesPath (ss : List Text) : Bool := Glob.matchFrom (ss.map Glob.Segment.ofText) (Glob.segments path)
  matchesPath ss || (coversDirectory ss && matchesPath ss.dropLast)

def standard : GlobReader := ⟨Glob.Brace.expand, baseOf, readsPath⟩

end GlobReader
end AnnotationIndex
