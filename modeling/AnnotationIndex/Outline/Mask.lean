import AnnotationIndex.Text.Search

/-!
Masking: comments and the insides of string literals become spaces, so that braces and calls are only
found in code. What is left stands in its own column.
-/
namespace AnnotationIndex
open Text

namespace Mask

structure Options where
  backtickStrings : Bool
  charLiterals : Bool
  hashComments : Bool

/-- Where a line stands: in code, in a block comment, in a string, or so many units before the end
of a character literal. -/
inductive Mode where
  | code
  | comment
  | string (quote : UInt16)
  | literal (left : Nat)
  deriving DecidableEq

/- The units between the quotes of a character literal, given what follows its opening quote: an escape
with anything up to the next quote, or one unit. A quote that opens none of these stays code. -/
def literalLength? : Text → Option Nat
  | u :: v :: rest =>
    if u == unit '\\' then
      if !isLineTerminator v && rest.elem (unit '\'') then
        some (2 + (rest.takeWhile (· != unit '\'')).length)
      else none
    else if u != unit '\'' && v == unit '\'' then some 1
    else none
  | _ => none

def blankOut (t : Text) : Text := t.map fun _ => 0x20

def codeLine (o : Options) : Mode → Text → Text × Mode
  | m, [] => ([], m)
  | .comment, u :: v :: rest =>
    if u == unit '*' && v == unit '/' then
      let (out, m) := codeLine o .code rest
      (0x20 :: 0x20 :: out, m)
    else
      let (out, m) := codeLine o .comment (v :: rest)
      (0x20 :: out, m)
  | .comment, [_] => ([0x20], .comment)
  | .string q, [u] =>
    if u == unit '\\' && q != unit '`' then ([0x20, 0x20], .string q)
    else if u == q then ([u], .code)
    else ([0x20], .string q)
  | .string q, u :: v :: rest =>
    if u == unit '\\' && q != unit '`' then
      let (out, m) := codeLine o (.string q) rest
      (0x20 :: 0x20 :: out, m)
    else if u == q then
      let (out, m) := codeLine o .code (v :: rest)
      (u :: out, m)
    else
      let (out, m) := codeLine o (.string q) (v :: rest)
      (0x20 :: out, m)
  | .literal 0, u :: rest =>
    let (out, m) := codeLine o .code rest
    (u :: out, m)
  | .literal (n + 1), _ :: rest =>
    let (out, m) := codeLine o (.literal n) rest
    (0x20 :: out, m)
  | .code, u :: rest =>
    let next := rest.head?
    if u == unit '/' && next == some (unit '/') then (blankOut (u :: rest), .code)
    else if o.hashComments && u == unit '#' then (blankOut (u :: rest), .code)
    else if u == unit '/' && next == some (unit '*') then
      match rest with
      | [] => ([0x20], .comment)
      | _ :: rest =>
        let (out, m) := codeLine o .comment rest
        (0x20 :: 0x20 :: out, m)
    else if u == unit '"' || (o.backtickStrings && u == unit '`') then
      let (out, m) := codeLine o (.string u) rest
      (u :: out, m)
    else
      match (if o.charLiterals && u == unit '\'' then literalLength? rest else none) with
      | some n =>
        let (out, m) := codeLine o (.literal n) rest
        (u :: out, m)
      | none =>
        let (out, m) := codeLine o .code rest
        (u :: out, m)

theorem codeLine_comment (o : Options) {u : UInt16} (hu : u ≠ unit '*') (t : Text) :
    codeLine o .comment (u :: t) = (0x20 :: (codeLine o .comment t).1, (codeLine o .comment t).2) := by
  cases t <;> simp [codeLine, hu]

theorem codeLine_string (o : Options) {q u : UInt16} (h : ¬(u == unit '\\' && q != unit '`') = true) (t : Text) :
    codeLine o (.string q) (u :: t) =
      let next := codeLine o (if u == q then .code else .string q) t
      ((if u == q then u else 0x20) :: next.1, next.2) := by
  cases t <;> simp only [codeLine] <;> rw [if_neg h] <;> cases u == q <;> rfl

/- Only comments and backtick strings go on in the next line. -/
def carry : Mode → Mode
  | .comment => .comment
  | .string q => if q == unit '"' || q == unit '\'' then .code else .string q
  | _ => .code

def codeFrom (o : Options) : Mode → List Text → List Text
  | _, [] => []
  | m, line :: rest =>
    let (out, m) := codeLine o m line
    out :: codeFrom o (carry m) rest

def code (o : Options) (lines : List Text) : List Text := codeFrom o .code lines

/-- In an indented language: in code, in a string of one line, so many quotes before the inside of a
triple-quoted string, or inside one. -/
inductive IndentedMode where
  | code
  | string (quote : UInt16)
  | opening (quote : UInt16) (left : Nat)
  | triple (quote : UInt16)
  deriving DecidableEq

def indentedLine : IndentedMode → Text → Text × IndentedMode
  | .string _, [] => ([], .code)
  | m, [] => ([], m)
  | .opening q left, u :: rest =>
    let (out, m) := indentedLine (match left with | 0 => .triple q | n + 1 => .opening q n) rest
    (u :: out, m)
  | .triple q, [_] => ([0x20], .triple q)
  | .triple q, [_, _] => ([0x20, 0x20], .triple q)
  | .triple q, u :: v :: w :: rest =>
    if u == q && v == q && w == q then
      let (out, m) := indentedLine .code rest
      (q :: q :: q :: out, m)
    else
      let (out, m) := indentedLine (.triple q) (v :: w :: rest)
      (0x20 :: out, m)
  | .string q, [u] => if u == q then ([u], .code) else ([0x20], .code)
  | .string q, u :: v :: rest =>
    if u == q then
      let (out, m) := indentedLine .code (v :: rest)
      (u :: out, m)
    else if u == unit '\\' then
      let (out, m) := indentedLine (.string q) rest
      (0x20 :: 0x20 :: out, m)
    else
      let (out, m) := indentedLine (.string q) (v :: rest)
      (0x20 :: out, m)
  | .code, u :: rest =>
    if u == unit '#' then ([], .code)
    else if u == unit '"' || u == unit '\'' then
      let (out, m) := indentedLine (if rest.take 2 == [u, u] then .opening u 1 else .string u) rest
      (u :: out, m)
    else
      let (out, m) := indentedLine .code rest
      (u :: out, m)

theorem indentedLine_string {q u : UInt16} (h : ¬(u != q && u == unit '\\') = true) (t : Text) :
    indentedLine (.string q) (u :: t) =
      let next := indentedLine (if u == q then .code else .string q) t
      ((if u == q then u else 0x20) :: next.1, next.2) := by
  by_cases hq : u = q
  · subst hq
    cases t <;> simp [indentedLine]
  · have hu : u ≠ unit '\\' := by simpa [hq] using h
    cases t <;> simp [indentedLine, hq, hu]

def indentedFrom : IndentedMode → List Text → List Text
  | _, [] => []
  | m, line :: rest =>
    let (out, m) := indentedLine m line
    out :: indentedFrom m rest

/-- Masks lines of a language with indented blocks; a comment is cut off with the rest of its line. -/
def indented (lines : List Text) : List Text := indentedFrom .code lines

end Mask
end AnnotationIndex
