import AnnotationIndex.Project.Promise
import AnnotationIndex.Project.Update

/-!
The store of a project: it holds the index published last, keeps it in a file and reads it back. Calls are done one at
a time in the order in which they were made; one that fails leaves the published index as it was.
-/
namespace AnnotationIndex
open Text

/-- A published index; the number tells one publication from another. -/
structure Snapshot where
  revision : Nat
  index : ProjectIndex

structure Store where
  project : Project
  disk : Disk
  log : List LogLine
  published : Nat
  snapshot : Option Snapshot

abbrev StoreWork (α : Type) := ExceptT ProjectFault (StateM Store) α

structure StoreUpdate where
  snapshot : Snapshot
  reindexed : List Text
  deleted : List Text
  relinked : List Text

namespace Store

def opened (project : Project) (disk : Disk) : Store := ⟨project, disk, [], 0, none⟩

def work {α : Type} (w : Project → Disk → Work α) : StoreWork α := fun s =>
  let (result, log) := w s.project s.disk s.log
  (result, { s with log := log })

def publish (r : ProjectIndex) : StoreWork Snapshot := do
  let s ← get
  let snapshot : Snapshot := ⟨s.published + 1, r⟩
  set { s with published := s.published + 1, snapshot := some snapshot }
  return snapshot

def load : StoreWork (Option Snapshot) := do
  let s ← get
  match s.disk.read? s.project.cacheFile with
  | .error f => throw (.disk f)
  | .ok none => return none
  | .ok (some t) =>
    match ProjectIndex.read t with
    | .ok r => return some (← publish r)
    | .error f => throw (.incompatible f)

def build (cancelled : Bool) : StoreWork Snapshot := do
  publish (← work fun p disk => p.build disk cancelled)

/-- Loads the index, or builds it when there is no file or no index of this version in it. -/
def loadOrBuild (cancelled : Bool) : StoreWork Snapshot := do
  let loaded ← tryCatch load fun
    | .incompatible f => do
      work fun _ _ => Work.say .warn "cache" ("Discarding cache: " ++ f.message)
      return none
    | f => throw f
  match loaded with
  | some snapshot => return snapshot
  | none => build cancelled

def keep (n : Snapshot) : StoreWork Snapshot := do
  modify fun s => { s with snapshot := some n }
  return n

/-- Applies changed paths to the index that has been published, if one has. Without one everything is built. -/
def updateFrom (seen : Option Snapshot) (changed : List Text) (cancelled : Bool) : StoreWork StoreUpdate := do
  match seen with
  | none =>
    let built ← build cancelled
    return ⟨built, built.index.files.keys, [], []⟩
  | some previous =>
    let u ← work fun p disk => p.update disk previous.index changed cancelled
    let snapshot ← if u.changes then publish u.index else keep previous
    return ⟨snapshot, u.reindexed, u.deleted, u.relinked⟩

def update (changed : List Text) (cancelled : Bool) : StoreWork StoreUpdate := do
  updateFrom (← get).snapshot changed cancelled

def saveFrom (seen : Option Snapshot) : StoreWork Unit := do
  let s ← get
  match seen with
  | none => throw .nothingToSave
  | some snapshot =>
    let path := s.project.cacheFile
    match s.disk.writable path with
    | .error f => throw (.disk f)
    | .ok _ =>
      set { s with disk := s.disk.write path snapshot.index.write }
      work fun _ _ => Work.say .debug "cache" ("Saved cache to " ++ path)

def save : StoreWork Unit := do saveFrom (← get).snapshot

end Store

inductive StoreCall where
  | load
  | build (cancelled : Bool)
  | update (changed : List Text) (cancelled : Bool)
  | save

inductive StoreAnswer where
  | loaded (snapshot : Option Snapshot)
  | built (snapshot : Snapshot)
  | updated (u : StoreUpdate)
  | saved

namespace StoreCall

/-- A call that has begun knows the snapshot that it has seen then, and no other. -/
def performFrom (seen : Option Snapshot) : StoreCall → StoreWork StoreAnswer
  | load => StoreAnswer.loaded <$> Store.load
  | build cancelled => StoreAnswer.built <$> Store.build cancelled
  | update changed cancelled => StoreAnswer.updated <$> Store.updateFrom seen changed cancelled
  | save => (fun _ => StoreAnswer.saved) <$> Store.saveFrom seen

def perform (c : StoreCall) : StoreWork StoreAnswer := do c.performFrom (← get).snapshot

end StoreCall

/-- The promises of a store: one for the start of every turn, and one for the answer to every call. -/
inductive TurnPromise where
  | start (turn : Nat)
  | answer (turn : Nat)
  deriving DecidableEq

inductive TurnAction where
  | begin (turn : Nat)
  | pass
  | tell (turn : Nat)
  deriving DecidableEq

structure Turn where
  number : Nat
  call : StoreCall
  seen : Option Snapshot

structure Finished extends Turn where
  answer : Except ProjectFault StoreAnswer

/-- A store with the calls made so far, those that have begun, those that are over, and those whose callers know. -/
structure StoreQueue where
  store : Store
  calls : List StoreCall
  promises : Promises TurnPromise TurnAction
  active : List Turn
  finished : List Finished
  told : List Finished

namespace StoreQueue

def opened (s : Store) : StoreQueue :=
  ⟨s, [], ⟨fun p => if p = .start 0 then .settled true else .pending [], []⟩, [], [], []⟩

def beginning (turn : Nat) : Reaction TurnPromise TurnAction := ⟨some (.answer turn), some (.begin turn), none⟩

/-- When a call is over, well or badly, the next turn starts. -/
def passing (turn : Nat) : Reaction TurnPromise TurnAction := ⟨some (.start (turn + 1)), some .pass, some .pass⟩

def telling (turn : Nat) : Reaction TurnPromise TurnAction := ⟨none, some (.tell turn), some (.tell turn)⟩

def issue (q : StoreQueue) (c : StoreCall) : StoreQueue :=
  let turn := q.calls.length
  let promises := q.promises.follow (.start turn) (beginning turn)
  let promises := promises.follow (.answer turn) (passing turn)
  let promises := promises.follow (.answer turn) (telling turn)
  { q with calls := q.calls ++ [c], promises }

def tick (q : StoreQueue) : StoreQueue :=
  match q.promises.jobs with
  | [] => q
  | j :: rest =>
    let promises := { q.promises with jobs := rest }
    match j.action with
    | none => { q with promises := promises.settleTarget j.reaction.target j.ok }
    | some .pass => { q with promises := promises.settleTarget j.reaction.target true }
    | some (.tell turn) =>
      { q with
        told := q.told ++ (q.finished.find? fun o => o.number == turn).toList
        promises := promises.settleTarget j.reaction.target true }
    | some (.begin turn) =>
      match q.calls[turn]? with
      | some c => { q with active := q.active ++ [⟨turn, c, q.store.snapshot⟩], promises }
      | none => { q with promises }

/-- What a call that has begun comes to, and the store that it leaves: a fault from outside, or what it does with
the files that it has found. -/
def outcomeOf (q : StoreQueue) (t : Turn) (found : Disk) (trouble : Option ProjectFault) : Finished × Store :=
  let before := { q.store with disk := found }
  match trouble with
  | some f => (⟨t, .error f⟩, before)
  | none =>
    let (answer, after) := t.call.performFrom t.seen before
    (⟨t, answer⟩, after)

def finish (q : StoreQueue) (i : Nat) (found : Disk) (trouble : Option ProjectFault) : StoreQueue :=
  match q.active[i]? with
  | none => q
  | some t =>
    let (done, store) := q.outcomeOf t found trouble
    { q with
      store, active := q.active.eraseIdx i, finished := q.finished ++ [done]
      promises := q.promises.settle (.answer t.number) done.answer.isOk }

/-- Does what comes next if nothing comes from outside: the next job, or else the call that began first. -/
def advance (q : StoreQueue) : StoreQueue :=
  if q.promises.jobs.isEmpty then q.finish 0 q.store.disk none else q.tick

/- A call is begun, is over, starts the next turn and is told to its caller. -/
def advanceBy : Nat → StoreQueue → StoreQueue
  | 0, q => q
  | n + 1, q => advanceBy n q.advance

def settle (q : StoreQueue) : StoreQueue := q.advanceBy (4 * q.calls.length)

def answers (q : StoreQueue) : List (Except ProjectFault StoreAnswer) := q.finished.map (·.answer)

end StoreQueue

/-- What can happen to a store: a call is made, the next job is done, or a call that has begun is over, having found
certain files or met with trouble. -/
inductive StoreEvent where
  | issue (c : StoreCall)
  | tick
  | finish (i : Nat) (found : Disk) (trouble : Option ProjectFault)

namespace StoreQueue

def apply (q : StoreQueue) : StoreEvent → StoreQueue
  | .issue c => q.issue c
  | .tick => q.tick
  | .finish i found trouble => q.finish i found trouble

def run (q : StoreQueue) (es : List StoreEvent) : StoreQueue := es.foldl apply q

end StoreQueue
end AnnotationIndex
