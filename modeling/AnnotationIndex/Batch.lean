import AnnotationIndex.Text.Unit

/-!
Work in batches. Items are started in order, as many at once as a batch holds; the next batch starts when the last one
has succeeded. Before each batch, and at the end, the work stops if it has been cancelled by then.
-/
namespace AnnotationIndex

structure Task (α β ε : Type) where
  item : α
  duration : Nat
  outcome : Except ε β

inductive BatchFault (ε : Type) where
  | cancelled
  | failed (e : ε)

structure BatchRun (α β ε : Type) where
  started : List α
  result : Except (BatchFault ε) (List β)

namespace Batch
variable {α β ε : Type}

def cancelledText : Text := "Operation cancelled"

/-- A list cut into pieces of `n + 1`. -/
def chunks (n : Nat) : List α → List (List α)
  | [] => []
  | x :: xs => (x :: xs.take n) :: chunks n (xs.drop n)
termination_by xs => xs.length
decreasing_by simp only [List.length_drop, List.length_cons]; omega

def size (concurrency : Int) : Nat := max 1 concurrency.toNat

/-- The failure that comes first, the item that was started first winning a tie. -/
def firstFailure : List (Task α β ε) → Option (Nat × ε)
  | [] => none
  | t :: rest =>
    match t.outcome, firstFailure rest with
    | .error e, some (n, f) => if t.duration ≤ n then some (t.duration, e) else some (n, f)
    | .error e, none => some (t.duration, e)
    | .ok _, later => later

def longest (batch : List (Task α β ε)) : Nat := batch.foldl (fun n t => max n t.duration) 0

def values (batch : List (Task α β ε)) : List β :=
  batch.filterMap fun t => match t.outcome with
    | .ok b => some b
    | .error _ => none

/-- Runs batches from a moment on; `cancelled` tells whether the work has been cancelled by a moment. -/
def runFrom (cancelled : Nat → Bool) : Nat → List (List (Task α β ε)) → BatchRun α β ε
  | now, [] => if cancelled now then ⟨[], .error .cancelled⟩ else ⟨[], .ok []⟩
  | now, batch :: rest =>
    if cancelled now then ⟨[], .error .cancelled⟩
    else
      match firstFailure batch with
      | some (_, e) => ⟨batch.map (·.item), .error (.failed e)⟩
      | none =>
        let next := runFrom cancelled (now + longest batch) rest
        ⟨batch.map (·.item) ++ next.started, next.result.map (values batch ++ ·)⟩

def run (concurrency : Int) (cancelled : Nat → Bool) (tasks : List (Task α β ε)) : BatchRun α β ε :=
  runFrom cancelled 0 (chunks (size concurrency - 1) tasks)

end Batch
end AnnotationIndex
