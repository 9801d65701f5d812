import AnnotationIndex.Project.Changes

/-!
A batcher among its timers and flushes. Each path that is added sets a timer in place of the one that runs. When a timer
runs out, or on demand, all that waits is flushed. A flush goes on by itself and ends at some later moment; a failure is
told to the error handler if a timer has caused the flush, and to the caller if a caller waits for it.
-/
namespace AnnotationIndex

inductive FlushCause where
  | timer
  | caller
  deriving DecidableEq

structure Flush (ε : Type) where
  paths : List Text
  cause : FlushCause
  ended : Option (Except ε Unit)

structure FlushFailure (ε : Type) where
  flush : Nat
  told : FlushCause
  error : ε

/-- The paths that wait, the timer that would be cleared, the timers that run (each with the number that it was set
with) and all flushes begun and failures told so far. -/
structure Batcher (ε : Type) where
  waiting : List Text
  timer : Option Nat
  running : List Nat
  timersSet : Nat
  flushes : List (Flush ε)
  failures : List (FlushFailure ε)

inductive BatcherEvent (ε : Type) where
  | add (path : Text)
  | cancel
  | drain
  | expire (timer : Nat)
  | finish (flush : Nat) (outcome : Except ε Unit)

namespace Batcher
variable {ε : Type}

def opened : Batcher ε := ⟨[], none, [], 0, [], []⟩

def clearTimer (b : Batcher ε) : Batcher ε :=
  { b with timer := none, running := b.running.filter fun t => some t != b.timer }

def setTimer (b : Batcher ε) : Batcher ε :=
  { b with timer := some b.timersSet, running := b.running ++ [b.timersSet], timersSet := b.timersSet + 1 }

def fire (b : Batcher ε) (cause : FlushCause) : Batcher ε :=
  if b.waiting.isEmpty then b
  else { b with waiting := [], flushes := b.flushes ++ [⟨b.waiting.mergeSort Text.le, cause, none⟩] }

def failureOf (flush : Nat) (cause : FlushCause) : Except ε Unit → Option (FlushFailure ε)
  | .ok _ => none
  | .error e => some ⟨flush, cause, e⟩

def finish (b : Batcher ε) (i : Nat) (outcome : Except ε Unit) : Batcher ε :=
  match b.flushes[i]? with
  | some ⟨paths, cause, none⟩ =>
    { b with
      flushes := b.flushes.set i ⟨paths, cause, some outcome⟩
      failures := b.failures ++ (failureOf i cause outcome).toList }
  | _ => b

def apply (b : Batcher ε) : BatcherEvent ε → Batcher ε
  | .add path =>
    { b.clearTimer with waiting := if b.waiting.elem path then b.waiting else b.waiting ++ [path] }.setTimer
  | .cancel => { b.clearTimer with waiting := [] }
  | .drain => b.clearTimer.fire .caller
  | .expire t => if b.running.elem t then { b with timer := none, running := b.running.erase t }.fire .timer else b
  | .finish i outcome => b.finish i outcome

def run (es : List (BatcherEvent ε)) : Batcher ε := es.foldl apply opened

end Batcher
end AnnotationIndex
