import AnnotationIndex.Comment.Line

/-!
Annotation blocks of a text: runs of comment lines that begin with a directive line and go on while
the lines are directives or are indented deeper than the first one.
-/
namespace AnnotationIndex
open Text

def sigil : Text := "@acp:"

structure BlockLine where
  line : Nat
  /-- The comment text without its delimiter. -/
  body : Text
  indent : Nat
  isDirective : Bool
  deriving DecidableEq

structure AnnotationBlock where
  first : BlockLine
  others : List BlockLine
  deriving DecidableEq

namespace BlockLine

def startsDirective (body : Text) : Bool := startsWith (trimStart body) sigil

def ofBody (line : Nat) (body : Text) : BlockLine :=
  ⟨line, body, indentWidth body, startsDirective body⟩

def directive? (c : CommentLine) : Option BlockLine :=
  match c.body with
  | some body => if startsDirective body then some (ofBody c.line body) else none
  | none => none

def continues? (indent : Nat) (c : CommentLine) : Option BlockLine :=
  match c.body with
  | some body =>
    if startsDirective body || (!(trim body).isEmpty && indent < indentWidth body) then
      some (ofBody c.line body)
    else none
  | none => none

end BlockLine

namespace AnnotationBlock

def lines (b : AnnotationBlock) : List BlockLine := b.first :: b.others

def last (b : AnnotationBlock) : BlockLine := b.others.getLastD b.first

def rawText (b : AnnotationBlock) : Text := join [0x0A] (b.lines.map fun l => trim l.body)

/- The lines of the open block after its first are held in reverse. -/
def closed (open? : Option (BlockLine × List BlockLine)) : List AnnotationBlock :=
  match open? with
  | some (first, others) => [⟨first, others.reverse⟩]
  | none => []

def scanFrom : Option (BlockLine × List BlockLine) → List CommentLine → List AnnotationBlock
  | open?, [] => closed open?
  | none, c :: rest => scanFrom ((BlockLine.directive? c).map fun l => (l, [])) rest
  | some (first, others), c :: rest =>
    match BlockLine.continues? first.indent c with
    | some l => scanFrom (some (first, l :: others)) rest
    | none => ⟨first, others.reverse⟩ :: scanFrom none rest

def scan (s : CommentSyntax) (t : Text) : List AnnotationBlock :=
  scanFrom none (CommentLine.classify s t)

end AnnotationBlock
end AnnotationIndex
