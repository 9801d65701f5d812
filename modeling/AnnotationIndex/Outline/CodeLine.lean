import AnnotationIndex.Outline.Mask
import AnnotationIndex.Text.Pattern

/-!
Lines of masked code with the depth of braces and of other brackets around them. Where a declaration
ends is read off these depths: at the line that closes its braces, or at the line that ends a
declaration without any.
-/
namespace AnnotationIndex
open Text

structure Depth where
  braces : Nat
  brackets : Nat
  deriving DecidableEq, Repr

structure CodeLine where
  source : Text
  code : Text
  before : Depth
  after : Depth

namespace Depth

def zero : Depth := ⟨0, 0⟩

/- A closing bracket without an opening one is ignored. -/
def step (d : Depth) (u : UInt16) : Depth :=
  if u == unit '\x7b' then { d with braces := d.braces + 1 }
  else if u == unit '\x7d' then { d with braces := d.braces - 1 }
  else if u == unit '(' || u == unit '[' then { d with brackets := d.brackets + 1 }
  else if u == unit ')' || u == unit ']' then { d with brackets := d.brackets - 1 }
  else d

def through (d : Depth) (t : Text) : Depth := t.foldl step d

end Depth

namespace CodeLine

def indexFrom : Depth → List (Text × Text) → List CodeLine
  | _, [] => []
  | d, (source, code) :: rest =>
    let after := d.through code
    ⟨source, code, d, after⟩ :: indexFrom after rest

def index (sources codes : List Text) : List CodeLine := indexFrom Depth.zero (sources.zip codes)

def isOpen (t : Text) : Bool := t.elem (unit '\x7b')

def goesOn (t : Text) : Bool :=
  match (trimEnd t).getLast? with
  | some u => Pattern.oneOf ",(=:+-*|&<>" u
  | none => false

def continuation : Pattern :=
  let whole (s : String) : Pattern := Pattern.lit s ++ .wordEdge
  .one (· == unit '\x7b') <|> whole "where" <|> "->" <|> "." <|> ":" <|>
    whole "throws" <|> whole "extends" <|> whole "implements"

def nextCode (rest : List CodeLine) : Option Text :=
  (rest.map fun l => trim l.code).find? fun t => !t.isEmpty

/- How many lines below the current one the declaration ends; the last line ends every declaration. -/
def lengthFrom (base : Depth) : (opened : Bool) → List CodeLine → Nat
  | _, [] => 0
  | opened, l :: rest =>
    let opened := opened || isOpen l.code
    let further := match rest with | [] => 0 | _ :: _ => lengthFrom base opened rest + 1
    if opened then (if l.after.braces ≤ base.braces then 0 else further)
    else if base.brackets < l.after.brackets then further
    else if l.code.elem (unit ';') then 0
    else if goesOn l.code then further
    else if ((nextCode rest).map continuation.starts).getD false then further
    else 0

def blockLength (ls : List CodeLine) : Nat :=
  match ls with
  | [] => 0
  | l :: _ => lengthFrom l.before false ls

def leading (p : Text → Bool) (above : List Text) : Nat := (above.takeWhile fun t => p (trim t)).length

end CodeLine

/-- Direct calls in masked code: a name, or a name with one qualifier, before an opening bracket.
Longer chains are passed over, and so are unqualified keywords. -/
def callees (keywords : List Text) (code : Text) : List Text :=
  let qualifier := Pattern.name ++ (("." : Pattern) <|> "::")
  let pattern := Pattern.notAfter (fun u => isWord u || Pattern.oneOf ".:$" u) ++
    .mark 1 (Pattern.opt qualifier ++ Pattern.name) ++ Pattern.blanks ++ "("
  (pattern.all code).filterMap fun m =>
    let raw := m.mark 1
    let parts := (splitOn (unit '.') raw).flatMap (splitText "::")
    if parts.length == 1 && keywords.elem raw then none else some (join "." parts)

end AnnotationIndex
