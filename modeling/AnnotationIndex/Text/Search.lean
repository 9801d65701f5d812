import AnnotationIndex.Text.Blank

/-!
Finding, cutting and joining texts.
-/
namespace AnnotationIndex.Text

def startsWith (t head : Text) : Bool := head.isPrefixOf t
def endsWith (t tail : Text) : Bool := tail.isSuffixOf t

def find? (needle : Text) : Text → Option Nat
  | [] => if needle.isEmpty then some 0 else none
  | u :: rest => if needle.isPrefixOf (u :: rest) then some 0 else (find? needle rest).map (· + 1)

def findLast? (needle : Text) : Text → Option Nat
  | [] => if needle.isEmpty then some 0 else none
  | u :: rest =>
    match findLast? needle rest with
    | some i => some (i + 1)
    | none => if needle.isPrefixOf (u :: rest) then some 0 else none

def contains (t needle : Text) : Bool := (find? needle t).isSome

def has (t : Text) (u : UInt16) : Bool := t.elem u

def splitOn (sep : UInt16) : Text → List Text
  | [] => [[]]
  | u :: rest =>
    if u == sep then [] :: splitOn sep rest
    else
      match splitOn sep rest with
      | [] => [[u]]
      | piece :: more => (u :: piece) :: more

/- Pieces between occurrences of a longer separator, found from the left without overlap.
`skip` counts the units of a separator still to be passed over. -/
def splitOnText (sep : Text) : (skip : Nat) → Text → List Text
  | _, [] => [[]]
  | skip + 1, _ :: rest => splitOnText sep skip rest
  | 0, u :: rest =>
    if !sep.isEmpty && sep.isPrefixOf (u :: rest) then [] :: splitOnText sep (sep.length - 1) rest
    else
      match splitOnText sep 0 rest with
      | [] => [[u]]
      | piece :: more => (u :: piece) :: more

def splitText (sep t : Text) : List Text := splitOnText sep 0 t

def join (sep : Text) : List Text → Text
  | [] => []
  | [t] => t
  | t :: u :: rest => t ++ sep ++ join sep (u :: rest)

def replaceUnit (old new : UInt16) (t : Text) : Text := t.map fun u => if u == old then new else u

def dropHead (head t : Text) : Text := if head.isPrefixOf t then t.drop head.length else t

def dropTail (tail t : Text) : Text :=
  if tail.isSuffixOf t then t.take (t.length - tail.length) else t

def spaces (n : Nat) : Text := List.replicate n 0x20

def padEnd (width : Nat) (t : Text) : Text := t ++ spaces (width - t.length)

def afterLast (sep : UInt16) (t : Text) : Text := (t.reverse.takeWhile (· != sep)).reverse

end AnnotationIndex.Text
