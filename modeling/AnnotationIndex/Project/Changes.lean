import AnnotationIndex.Text.Order

/-!
Changes waiting to be handed over. Paths collect while new ones keep arriving; when none has come for a while, or on
demand, they are handed over together, sorted, each once.
-/
namespace AnnotationIndex

structure PendingChanges where
  paths : List Text
  armed : Bool
  deriving DecidableEq

inductive ChangeStep where
  | add (path : Text)
  | cancel
  | drain
  | elapse
  deriving DecidableEq

structure ChangeReport (ε : Type) where
  flushed : Option (List Text)
  reported : Option ε
  refused : Option ε

namespace PendingChanges
variable {ε : Type}

def empty : PendingChanges := ⟨[], false⟩

def add (p : PendingChanges) (path : Text) : PendingChanges :=
  ⟨if p.paths.elem path then p.paths else p.paths ++ [path], true⟩

def due (p : PendingChanges) : Option (List Text) := if p.paths.isEmpty then none else some (Text.sortedSet p.paths)

def failureOf (flush : List Text → Except ε Unit) : Option (List Text) → Option ε
  | none => none
  | some paths =>
    match flush paths with
    | .ok _ => none
    | .error e => some e

/-- One step; a timer that is not armed does not expire. -/
def step (flush : List Text → Except ε Unit) (p : PendingChanges) : ChangeStep → PendingChanges × ChangeReport ε
  | .add path => (p.add path, ⟨none, none, none⟩)
  | .cancel => (empty, ⟨none, none, none⟩)
  | .drain => (empty, ⟨p.due, none, failureOf flush p.due⟩)
  | .elapse => if p.armed then (empty, ⟨p.due, failureOf flush p.due, none⟩) else (p, ⟨none, none, none⟩)

end PendingChanges
end AnnotationIndex
