/-!
Promises. A promise is pending until it is settled, once: with success or with failure. What follows a promise waits for
that and then becomes a job; jobs are done one by one, in the order in which they came up.
-/
namespace AnnotationIndex

/-- What follows a promise: an action for its success and one for its failure. Where there is no action the outcome
is handed on. Either way the target is settled with how it went. -/
structure Reaction (I A : Type) where
  target : Option I
  onSuccess : Option A
  onFailure : Option A

inductive Promise (I A : Type) where
  | pending (reactions : List (Reaction I A))
  | settled (ok : Bool)

structure Job (I A : Type) where
  reaction : Reaction I A
  ok : Bool

structure Promises (I A : Type) where
  promise : I → Promise I A
  jobs : List (Job I A)

namespace Job
variable {I A : Type}

def action (j : Job I A) : Option A := if j.ok then j.reaction.onSuccess else j.reaction.onFailure

end Job

namespace Promises
variable {I A : Type} [DecidableEq I]

def put (ps : Promises I A) (p : I) (x : Promise I A) : Promises I A :=
  { ps with promise := fun q => if q = p then x else ps.promise q }

def follow (ps : Promises I A) (p : I) (r : Reaction I A) : Promises I A :=
  match ps.promise p with
  | .pending rs => ps.put p (.pending (rs ++ [r]))
  | .settled ok => { ps with jobs := ps.jobs ++ [⟨r, ok⟩] }

def settle (ps : Promises I A) (p : I) (ok : Bool) : Promises I A :=
  match ps.promise p with
  | .pending rs => { ps.put p (.settled ok) with jobs := ps.jobs ++ rs.map fun r => ⟨r, ok⟩ }
  | .settled _ => ps

def settleTarget (ps : Promises I A) (target : Option I) (ok : Bool) : Promises I A :=
  match target with
  | some p => ps.settle p ok
  | none => ps

end Promises
end AnnotationIndex
