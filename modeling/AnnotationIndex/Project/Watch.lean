import AnnotationIndex.Project.Changes
import AnnotationIndex.Project.Store

/-!
Watching a project. Events name files that have changed; those that belong to the project wait until no event has come
for a while and are then handed to the store in one batch. After each batch that succeeds the index is saved. The
store does one call at a time, so batches may pile up behind one that is still being applied.
-/
namespace AnnotationIndex
open Text

inductive WatchCall where
  | update (batch : List Text)
  | save (done : StoreUpdate)

def WatchCall.onStore : WatchCall → StoreCall
  | update batch => .update batch false
  | save _ => .save

inductive WatchReport where
  | updated (u : StoreUpdate)
  | failed (fault : ProjectFault)
  | troubled (reason : Text)

/-- A watch with the paths that wait, the batches handed over so far, the calls to be made next and the reports so
far. -/
structure Watch where
  root : Text
  filter : ProjectFilter
  pending : PendingChanges
  batches : List (List Text)
  calls : List WatchCall
  reports : List WatchReport
  closed : Bool

namespace Watch

def opened (root : Text) (filter : ProjectFilter) : Watch := ⟨root, filter, .empty, [], [], [], false⟩

def start (p : Project) (disk : Disk) : Except DiskFault Watch := (p.filter disk).map (opened p.root)

def unwatched : List Text := List.map ofString ["node_modules", ".git"]

def ignores (root path : Text) : Bool := (splitOn Path.slash (ProjectPath.ofPath root path)).any unwatched.elem

def keyOf (w : Watch) (path : Text) : Text := ProjectPath.ofPath w.root (Path.resolve w.root path)

def notice (w : Watch) (path : Text) : Except IgnoreFault Watch := do
  let key := w.keyOf path
  if w.closed then return w
  if ← w.filter.accepts key then return { w with pending := w.pending.add key } else return w

def trouble (w : Watch) (reason : Text) : Watch := { w with reports := w.reports ++ [.troubled reason] }

def expire (w : Watch) : Watch :=
  if w.pending.armed then
    match w.pending.due with
    | some batch =>
      { w with pending := .empty, batches := w.batches ++ [batch], calls := w.calls ++ [.update batch] }
    | none => { w with pending := .empty }
  else w

/-- Learns how a call has ended. What a batch has led to is saved, and what has been saved is told. -/
def hear (w : Watch) (c : WatchCall) (answer : Except ProjectFault StoreAnswer) : Watch :=
  match c, answer with
  | _, .error f => { w with reports := w.reports ++ [.failed f] }
  | .update _, .ok (.updated u) => { w with calls := w.calls ++ [.save u] }
  | .update _, .ok _ => w
  | .save u, .ok _ => { w with reports := w.reports ++ [.updated u] }

/-- Ends the watch; what waits is dropped, calls already made are still done. -/
def close (w : Watch) : Watch := { w with pending := .empty, closed := true }

end Watch

structure WatchedStore where
  watch : Watch
  queue : StoreQueue
  purposes : List WatchCall

namespace WatchedStore

def opened (w : Watch) (s : Store) : WatchedStore := ⟨w, .opened s, []⟩

def makeCalls (r : WatchedStore) : WatchedStore :=
  { watch := { r.watch with calls := [] }
    queue := (r.watch.calls.map WatchCall.onStore).foldl StoreQueue.issue r.queue
    purposes := r.purposes ++ r.watch.calls }

def act (r : WatchedStore) (w : Watch) : WatchedStore := makeCalls { r with watch := w }

def tick (r : WatchedStore) : WatchedStore :=
  let queue := r.queue.tick
  let news := queue.told.drop r.queue.told.length
  let hear (w : Watch) (t : Finished) : Watch :=
    match r.purposes[t.number]? with
    | some c => w.hear c t.answer
    | none => w
  act { r with queue } (news.foldl hear r.watch)

def finish (r : WatchedStore) (i : Nat) (found : Disk) (trouble : Option ProjectFault) : WatchedStore :=
  { r with queue := r.queue.finish i found trouble }

def advance (r : WatchedStore) : WatchedStore :=
  if r.queue.promises.jobs.isEmpty then r.finish 0 r.queue.store.disk none else r.tick

def advanceBy : Nat → WatchedStore → WatchedStore
  | 0, r => r
  | n + 1, r => advanceBy n r.advance

end WatchedStore

/-- Does all calls, and those that they lead to: a batch takes two calls at most, and a call four steps. -/
def Watch.settle (w : Watch) (s : Store) : Watch × Store :=
  let r := (WatchedStore.opened w s).makeCalls.advanceBy (8 * w.calls.length)
  (r.watch, r.queue.store)

inductive WatchEvent where
  | change (path : Text)
  | trouble (reason : Text)
  | expire
  | close
  | tick
  | finish (i : Nat) (found : Disk) (trouble : Option ProjectFault)

namespace WatchedStore

/-- One event. A change that the ignore rules cannot judge changes nothing. -/
def apply (r : WatchedStore) : WatchEvent → WatchedStore
  | .change path =>
    match r.watch.notice path with
    | .ok w => r.act w
    | .error _ => r
  | .trouble reason => r.act (r.watch.trouble reason)
  | .expire => r.act r.watch.expire
  | .close => r.act r.watch.close
  | .tick => r.tick
  | .finish i found trouble => r.finish i found trouble

def run (r : WatchedStore) (es : List WatchEvent) : WatchedStore := es.foldl apply r

end WatchedStore
end AnnotationIndex
