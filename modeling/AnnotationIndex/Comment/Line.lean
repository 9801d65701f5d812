import AnnotationIndex.Comment.Syntax
import AnnotationIndex.Text.Lines

/-!
Which lines of a text are blank, comment or code. A block comment counts from the line that it opens,
provided that it opens at the line's start, through the line that closes it; text after the closing
delimiter does not make the line code.
-/
namespace AnnotationIndex

inductive LineKind where
  | blank
  | comment
  | code
  deriving DecidableEq, Repr, Inhabited

def LineKind.name : LineKind → Text
  | blank => "blank"
  | comment => "comment"
  | code => "code"

structure CommentLine where
  line : Nat
  kind : LineKind
  body : Option Text
  deriving DecidableEq

namespace CommentLine
open Text

/-- Inside a block comment a leading star belongs to the delimiter, unless it closes the comment. -/
def dropStar (t : Text) : Text :=
  match trimStart t with
  | u :: v :: rest => if u == unit '*' && v != unit '/' then v :: rest else t
  | [u] => if u == unit '*' then [] else t
  | [] => t

def insideBlock (d : BlockDelimiter) (raw : Text) : Text × Option BlockDelimiter :=
  if Text.contains (trim raw) d.closing then
    (dropStar (raw.take ((Text.find? d.closing raw).getD 0)), none)
  else (dropStar raw, some d)

def openBlock (d : BlockDelimiter) (after : Text) : Text × Option BlockDelimiter :=
  match Text.find? d.closing after with
  | some i => (after.take i, none)
  | none => (after, some d)

/-- The kind and body of a line outside block comments, and the block comment that it leaves open. -/
def outsideBlock (s : CommentSyntax) (raw : Text) : LineKind × Option Text × Option BlockDelimiter :=
  let t := trim raw
  if t.isEmpty then (.blank, none, none)
  else
    let marker := s.marker? t
    let delimiter := s.block.find? fun d => startsWith t d.opening
    match delimiter, marker with
    | some d, some m =>
      if m.length ≤ d.opening.length then
        let (body, still) := openBlock d (t.drop d.opening.length)
        (.comment, some body, still)
      else (.comment, some (t.drop m.length), none)
    | some d, none =>
      let (body, still) := openBlock d (t.drop d.opening.length)
      (.comment, some body, still)
    | none, some m => (.comment, some (t.drop m.length), none)
    | none, none => (.code, none, none)

def classifyFrom (s : CommentSyntax) : Option BlockDelimiter → Nat → List Text → List CommentLine
  | _, _, [] => []
  | some d, n, raw :: rest =>
    let (body, still) := insideBlock d raw
    ⟨n, .comment, some body⟩ :: classifyFrom s still (n + 1) rest
  | none, n, raw :: rest =>
    let (kind, body, still) := outsideBlock s raw
    ⟨n, kind, body⟩ :: classifyFrom s still (n + 1) rest

def classify (s : CommentSyntax) (t : Text) : List CommentLine := classifyFrom s none 1 (lines t)

end CommentLine
end AnnotationIndex
