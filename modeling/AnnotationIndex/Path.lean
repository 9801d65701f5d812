import AnnotationIndex.Text.Search

/-!
Paths with `/` between segments: their parts, normal form, and how one is reached from another.
-/
namespace AnnotationIndex.Path
open Text

def slash : UInt16 := unit '/'
def dot : UInt16 := unit '.'

def isAbsolute (p : Text) : Bool := p.head? == some slash

def dropSlashes (p : Text) : Text := (p.reverse.dropWhile (· == slash)).reverse

def baseName (p : Text) : Text := afterLast slash (dropSlashes p)

def lastDot? (base : Text) : Option Nat := findLast? [dot] base

/-- The last segment from its last dot on; a dot at its start begins no extension. -/
def extension (p : Text) : Text :=
  let base := baseName p
  match lastDot? base with
  | none => []
  | some i => if i = 0 || base == (".." : Text) then [] else base.drop i

/-- Everything before the last segment: `.` when there is nothing, `/` for what lies in the root. -/
def directory (p : Text) : Text :=
  let head := (dropSlashes p).reverse.dropWhile (· != slash)
  match head with
  | [] => if isAbsolute p then "/" else "."
  | [_] => "/"
  | _ :: above =>
    let above := above.reverse
    if above == ("/" : Text) then "//" else above

/- Segments are kept in reverse. A `..` takes back the last segment, or stays if there is none to take
back and the path may climb. -/
def normalStep (climbs : Bool) (kept : List Text) (segment : Text) : List Text :=
  if segment.isEmpty || segment == ("." : Text) then kept
  else if segment == (".." : Text) then
    match kept with
    | s :: rest => if s == (".." : Text) then segment :: kept else rest
    | [] => if climbs then [segment] else []
  else segment :: kept

/-- The segments of a path without empty ones, `.` and those that `..` takes back. -/
def normalSegments (climbs : Bool) (p : Text) : List Text :=
  ((splitOn slash p).foldl (normalStep climbs) []).reverse

/-- The shortest spelling of a path; a slash at its end is kept. -/
def normalize (p : Text) : Text :=
  if p.isEmpty then "."
  else
    let absolute := isAbsolute p
    let body := join [slash] (normalSegments (!absolute) p)
    let trailing := p.getLast? == some slash
    if body.isEmpty then (if absolute then "/" else if trailing then "./" else ".")
    else
      let body := if trailing then body ++ [slash] else body
      if absolute then slash :: body else body

def joinAll (parts : List Text) : Text :=
  let whole := join [slash] (parts.filter fun p => !p.isEmpty)
  if whole.isEmpty then "." else normalize whole

def resolve (base p : Text) : Text :=
  let whole := if isAbsolute p then p else base ++ (slash :: p)
  slash :: join [slash] (normalSegments false whole)

def commonLength : List Text → List Text → Nat
  | s :: ss, t :: ts => if s == t then commonLength ss ts + 1 else 0
  | _, _ => 0

/-- The way from one path to another, both absolute or both from the same place. -/
def relative (source target : Text) : Text :=
  let s := normalSegments (!isAbsolute source) source
  let t := normalSegments (!isAbsolute target) target
  let n := commonLength s t
  join [slash] (List.replicate (s.length - n) (".." : Text) ++ t.drop n)

end AnnotationIndex.Path

namespace AnnotationIndex.ProjectPath
open Text

/- The paths under which an index knows the files of a project: relative to its directory. -/

def ofPath (root path : Text) : Text :=
  dropHead (ofString "./") (if Path.isAbsolute path then Path.relative root path else path)

def toPath (root key : Text) : Text := Path.joinAll (root :: splitOn Path.slash key)

end AnnotationIndex.ProjectPath
