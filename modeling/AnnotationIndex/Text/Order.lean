import AnnotationIndex.Text.Unit

/-!
The order of texts: lexicographic by code unit, which differs from the order by scalar value where
a surrogate pair meets a unit above it. Sorted sets of texts are lists without repetition in this order.
-/
namespace AnnotationIndex.Text

def compare : Text → Text → Ordering
  | [], [] => .eq
  | [], _ :: _ => .lt
  | _ :: _, [] => .gt
  | u :: s, v :: t => if u < v then .lt else if v < u then .gt else compare s t

def le (s t : Text) : Bool := compare s t != .gt
def lt (s t : Text) : Bool := compare s t == .lt

def dedupNeighbours : List Text → List Text
  | [] => []
  | [t] => [t]
  | s :: t :: rest => if s == t then dedupNeighbours (t :: rest) else s :: dedupNeighbours (t :: rest)

def sortedSet (ts : List Text) : List Text := dedupNeighbours (ts.mergeSort le)

def sortByKey {α : Type} (entries : List (Text × α)) : List (Text × α) :=
  entries.mergeSort fun a b => le a.1 b.1

end AnnotationIndex.Text
