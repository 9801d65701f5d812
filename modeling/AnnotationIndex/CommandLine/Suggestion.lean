import AnnotationIndex.Text.Order
import AnnotationIndex.Text.Search

/-!
Suggesting what a mistyped word may have meant: the known words nearest to it, if they are near enough. The distance
of two words is the least number of units to put in, take out, change or swap with their neighbour, where no unit is
touched twice.
-/
namespace AnnotationIndex.Suggestion
open Text

def maxDistance : Nat := 3

/- Row by row, one for each unit of `b`, of the distances of the beginnings of `a` to a beginning of `b`. The beginning
ends with `v`, and with `w` before it; `previous` and `older` are the rows of the two beginnings before it. -/
def cell (a : Text) (v : UInt16) (w : Option UInt16) (older previous row : List Nat) (i : Nat) : Nat :=
  let change := previous.getD i 0 + (if a[i]? == some v then 0 else 1)
  let plain := min (min (previous.getD (i + 1) 0) (row.getD i 0) + 1) change
  if 0 < i && w.isSome && a[i]? == w && a[i - 1]? == some v then min plain (older.getD (i - 1) 0 + 1) else plain

def nextRow (a : Text) (v : UInt16) (w : Option UInt16) (older previous : List Nat) : List Nat :=
  (List.range a.length).foldl (fun row i => row ++ [cell a v w older previous row i]) [previous.getD 0 0 + 1]

def lastRow (a : Text) : (w : Option UInt16) → (older previous : List Nat) → (b : Text) → List Nat
  | _, _, previous, [] => previous
  | w, older, previous, v :: rest => lastRow a (some v) previous (nextRow a v w older previous) rest

/-- The distance of two words; of words that differ much in length, the length of the longer. -/
def distance (a b : Text) : Nat :=
  if maxDistance < a.length - b.length || maxDistance < b.length - a.length then max a.length b.length
  else (lastRow a none [] (List.range (a.length + 1)) b).getLastD 0

def isSimilar (a b : Text) (distance : Nat) : Bool :=
  let length := max a.length b.length
  2 * length < 5 * (length - distance)

/-- The words nearest to a word, of those that are near enough; a word of one unit is never suggested. -/
def nearest (word : Text) (known : List Text) : List Text :=
  let near := known.eraseDups.filterMap fun k =>
    let d := distance word k
    if 1 < k.length && isSimilar word k d && d ≤ maxDistance then some (d, k) else none
  match (near.map (·.1)).min? with
  | none => []
  | some best => ((near.filter fun n => n.1 = best).map (·.2)).mergeSort Text.le

def dashes : Text := "--"

/-- The words meant by a word; where it begins as an option does, the known words are taken for options. -/
def meant (word : Text) (known : List Text) : List Text :=
  if startsWith word dashes then (nearest (word.drop 2) (known.eraseDups.map (·.drop 2))).map (dashes ++ ·)
  else nearest word known

def text (word : Text) (known : List Text) : Text :=
  match meant word known with
  | [] => []
  | [w] => "\n(Did you mean " ++ w ++ "?)"
  | ws => "\n(Did you mean one of " ++ join ", " ws ++ "?)"

end AnnotationIndex.Suggestion
