import AnnotationIndex.Glob.Brace
import AnnotationIndex.Glob.Segment

/-!
Globs over paths. A glob is a set of alternatives, each a list of segments; `**` stands for any number of
directories. A glob that starts with `!` matches what the rest does not match, and one that starts with `#` nothing.
-/
namespace AnnotationIndex
open Text

structure Glob where
  negated : Bool
  alternatives : List (List Glob.Segment)

namespace Glob

/-- The segments of a path; slashes that follow each other separate once. -/
def segments (t : Text) : List Text := collapse (splitOn Path.slash t)
where
  collapse : List Text → List Text
    | [] => []
    | [s] => [s]
    | s :: rest => s :: dropEmpty rest
  dropEmpty : List Text → List Text
    | [] => []
    | [s] => [s]
    | s :: rest => if s.isEmpty then dropEmpty rest else s :: dropEmpty rest

/- Segments are kept in reverse. A second `**` adds nothing, and `..` takes back a name before it. -/
def simplifyStep (kept : List Text) (s : Text) : List Text :=
  let isFixed (t : Text) := t.isEmpty || [".", "..", "**"].any fun f => t == ofString f
  match kept with
  | last :: rest =>
    if s == ofString "**" && last == ofString "**" then kept
    else if s == ofString ".." && !isFixed last then rest
    else s :: kept
  | [] => [s]

def simplify (ss : List Text) : List Text :=
  match (ss.foldl simplifyStep []).reverse with
  | [] => [[]]
  | ss => ss

def bang : UInt16 := unit '!'

def ofText (t : Text) : Glob :=
  let marks := (t.takeWhile (· == bang)).length
  if t.head? == some (unit '#') then ⟨false, []⟩
  else if t.isEmpty then ⟨false, [[.literal []]]⟩
  else
    { negated := marks % 2 = 1
      alternatives := (Brace.expand (t.drop marks)).map fun g => (simplify (segments g)).map Segment.ofText }

/-- Whether segments of a glob match those of a path. At the end `**` takes at least one segment, and elsewhere any
number of them; an empty segment at the end of the path is no segment to match. -/
def matchFrom : List Segment → List Text → Bool
  | [], ts => ts == [] || ts == [[]]
  | _ :: _, [] => false
  | s :: more, t :: ts =>
    match s with
    | .anyDirectories =>
      if more.isEmpty then (t :: ts).all fun t => !Segment.isDots t
      else matchFrom more (t :: ts) || (!Segment.isDots t && matchFrom (s :: more) ts)
    | s => s.isMatch t && matchFrom more ts
termination_by ss ts => ss.length + ts.length

def isMatch (g : Glob) (path : Text) : Bool :=
  let ts := segments path
  (g.alternatives.any fun ss => matchFrom ss ts) != g.negated

end Glob
end AnnotationIndex
