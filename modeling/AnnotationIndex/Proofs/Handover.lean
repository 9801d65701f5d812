import AnnotationIndex.Proofs.Flushes
import AnnotationIndex.Proofs.Settling

/-!
How a watch hands changes over. The paths that events name wait until the timer expires and are then handed over as
one batch. Batches reach the store in the order in which they were handed over, whatever the store is doing
meanwhile, and no path that waits is lost unless the watch is closed.
-/
namespace AnnotationIndex
open Text

def StoreCall.batch? : StoreCall → Option (List Text)
  | update changed _ => some changed
  | _ => none

namespace StoreQueue
variable {project : Project} {s : Option Snapshot} {q : StoreQueue}

theorem foldl_issue (q : StoreQueue) (cs : List StoreCall) :
    (cs.foldl issue q).calls = q.calls ++ cs ∧ (cs.foldl issue q).finished = q.finished ∧
      (cs.foldl issue q).told = q.told ∧ (cs.foldl issue q).store = q.store := by
  induction cs generalizing q with
  | nil => exact ⟨(List.append_nil _).symm, rfl, rfl, rfl⟩
  | cons c rest ih =>
    obtain ⟨hcalls, hrest⟩ := ih (q.issue c)
    exact ⟨hcalls.trans (List.append_assoc _ [c] rest), hrest⟩

theorem serial_foldl_issue (h : Serial project s q) (cs : List StoreCall) : Serial project s (cs.foldl issue q) := by
  induction cs generalizing q with
  | nil => exact h
  | cons c rest ih => exact ih (serial_issue c h)

end StoreQueue

namespace Watch
variable {root : Text} {filter : ProjectFilter} {made : List StoreCall} {w w' : Watch} {path key : Text}

theorem notice_cases (h : w.notice path = .ok w') :
    w' = w ∨ w.closed = false ∧ w' = { w with pending := w.pending.add (w.keyOf path) } := by
  cases hclosed : w.closed with
  | true =>
    simp only [notice, hclosed, if_true] at h
    exact .inl (Except.ok.inj h).symm
  | false =>
    simp only [notice, hclosed, Bool.false_eq_true, if_false] at h
    cases haccepts : w.filter.accepts (w.keyOf path) with
    | error f =>
      rw [haccepts] at h
      cases h
    | ok accepted =>
      rw [haccepts] at h
      cases accepted with
      | true => exact .inr ⟨rfl, (Except.ok.inj h).symm⟩
      | false => exact .inl (Except.ok.inj h).symm

theorem notice_accepted (hclosed : w.closed = false) (h : w.filter.accepts (w.keyOf path) = .ok true) :
    w.notice path = .ok { w with pending := w.pending.add (w.keyOf path) } := by
  simp only [notice, hclosed, Bool.false_eq_true, if_false, h]
  rfl

theorem hear_frame (w : Watch) (c : WatchCall) (answer : Except ProjectFault StoreAnswer) :
    (w.hear c answer).root = w.root ∧ (w.hear c answer).filter = w.filter ∧ (w.hear c answer).pending = w.pending ∧
      (w.hear c answer).batches = w.batches ∧ (w.hear c answer).closed = w.closed := by
  unfold hear
  split <;> exact ⟨rfl, rfl, rfl, rfl, rfl⟩

/-- What a watch hears makes it ask for a save at most. -/
theorem hear_calls (w : Watch) (c : WatchCall) (answer : Except ProjectFault StoreAnswer) :
    (w.hear c answer).calls = w.calls ∨ ∃ u, (w.hear c answer).calls = w.calls ++ [.save u] := by
  unfold hear
  split
  · exact .inl rfl
  · exact .inr ⟨_, rfl⟩
  · exact .inl rfl
  · exact .inl rfl

structure Asks (root : Text) (filter : ProjectFilter) (made : List StoreCall) (w : Watch) : Prop where
  root : w.root = root
  filter : w.filter = filter
  batches : (made ++ w.calls.map WatchCall.onStore).filterMap StoreCall.batch? = w.batches

theorem asks_notice (h : w.Asks root filter made) (hw : w.notice path = .ok w') : w'.Asks root filter made := by
  cases notice_cases hw with
  | inl hsame => exact hsame ▸ h
  | inr hadded =>
    rw [hadded.2]
    exact ⟨h.root, h.filter, h.batches⟩

theorem asks_expire (h : w.Asks root filter made) : w.expire.Asks root filter made := by
  unfold expire
  split
  · split
    · next batch _ =>
      refine ⟨h.root, h.filter, ?_⟩
      rw [List.map_append, ← List.append_assoc, List.filterMap_append, h.batches]
      rfl
    · exact ⟨h.root, h.filter, h.batches⟩
  · exact h

theorem asks_hear (h : w.Asks root filter made) (c : WatchCall) (answer : Except ProjectFault StoreAnswer) :
    (w.hear c answer).Asks root filter made := by
  obtain ⟨hroot, hfilter, _, hbatches, _⟩ := hear_frame w c answer
  refine ⟨hroot.trans h.root, hfilter.trans h.filter, ?_⟩
  rw [hbatches, ← h.batches]
  cases hear_calls w c answer with
  | inl hsame => rw [hsame]
  | inr hsave =>
    obtain ⟨u, hu⟩ := hsave
    rw [hu, List.map_append, ← List.append_assoc, List.filterMap_append]
    exact List.append_nil _

/-- What has become of a path that an event has named since `before` had been handed over: the first batch after the
event holds it, it still waits, or the watch was closed before there was such a batch. -/
inductive Fate (key : Text) (before : List (List Text)) (es : List WatchEvent) (w : Watch) : Prop
  | handed (b : List Text) (rest : List (List Text)) (batches : w.batches = before ++ b :: rest) (mem : key ∈ b)
  | waiting (batches : w.batches = before) (mem : key ∈ w.pending.paths) (armed : w.pending.armed = true)
  | dropped (batches : w.batches = before) (close : .close ∈ es) (pending : w.pending = .empty)
      (closed : w.closed = true)

section Fate
variable {before : List (List Text)} {es : List WatchEvent}

theorem fate_mono (h : w.Fate key before es) (e : WatchEvent) : w.Fate key before (es ++ [e]) := by
  cases h with
  | handed b rest batches mem => exact .handed b rest batches mem
  | waiting batches mem armed => exact .waiting batches mem armed
  | dropped batches close pending closed => exact .dropped batches (List.mem_append_left _ close) pending closed

theorem fate_congr (h : w.Fate key before es) (hbatches : w'.batches = w.batches) (hpending : w'.pending = w.pending)
    (hclosed : w'.closed = w.closed) : w'.Fate key before es := by
  cases h with
  | handed b rest batches mem => exact .handed b rest (hbatches.trans batches) mem
  | waiting batches mem armed => exact .waiting (hbatches.trans batches) (hpending ▸ mem) (hpending ▸ armed)
  | dropped batches close pending closed =>
    exact .dropped (hbatches.trans batches) close (hpending.trans pending) (hclosed.trans closed)

theorem fate_notice (h : w.Fate key before es) (hw : w.notice path = .ok w') : w'.Fate key before es := by
  cases notice_cases hw with
  | inl hsame => exact hsame ▸ h
  | inr hadded =>
    obtain ⟨hopen, rfl⟩ := hadded
    cases h with
    | handed b rest batches mem => exact .handed b rest batches mem
    | waiting batches mem armed => exact .waiting batches (PendingChanges.mem_add.mpr (.inl mem)) rfl
    | dropped batches close pending closed => exact absurd (hopen.symm.trans closed) (by simp)

/-- When the timer expires everything that waits is in the batch. -/
theorem fate_expire (h : w.Fate key before es) : w.expire.Fate key before es := by
  cases h with
  | handed b rest batches mem =>
    unfold expire
    split
    · split
      · next batch _ =>
        refine .handed b (rest ++ [batch]) ?_ mem
        rw [batches, List.append_assoc, List.cons_append]
      · exact .handed b rest batches mem
    · exact .handed b rest batches mem
  | waiting batches mem armed =>
    rw [expire, if_pos armed, PendingChanges.due_of_mem mem]
    exact .handed (sortedSet w.pending.paths) [] (congrArg (· ++ _) batches) (mem_sortedSet.mpr mem)
  | dropped batches close pending closed =>
    have hunarmed : ¬w.pending.armed = true := by simp [pending, PendingChanges.empty]
    rw [expire, if_neg hunarmed]
    exact .dropped batches close pending closed

theorem fate_close (h : w.Fate key before es) : w.close.Fate key before (es ++ [.close]) := by
  have hclose : .close ∈ es ++ [.close] := List.mem_append_right es (List.mem_singleton.mpr rfl)
  cases h with
  | handed b rest batches mem => exact .handed b rest batches mem
  | waiting batches _ _ => exact .dropped batches hclose rfl rfl
  | dropped batches _ _ _ => exact .dropped batches hclose rfl rfl

end Fate
end Watch

namespace WatchedStore
variable {root : Text} {filter : ProjectFilter} {s : Store} {r : WatchedStore}

structure Follows (root : Text) (filter : ProjectFilter) (s : Store) (r : WatchedStore) : Prop where
  serial : StoreQueue.Serial s.project s.snapshot r.queue
  purposes : r.queue.calls = r.purposes.map WatchCall.onStore
  asks : r.watch.Asks root filter r.queue.calls
  calls : r.watch.calls = []

theorem follows_opened (root : Text) (filter : ProjectFilter) (s : Store) :
    Follows root filter s (opened (Watch.opened root filter) s) :=
  ⟨StoreQueue.serial_opened s, rfl, ⟨rfl, rfl, rfl⟩, rfl⟩

theorem follows_act (h : Follows root filter s r) {w : Watch} (hw : w.Asks root filter r.queue.calls) :
    Follows root filter s (r.act w) := by
  obtain ⟨hcalls, _⟩ := StoreQueue.foldl_issue r.queue (w.calls.map WatchCall.onStore)
  have hmade : (r.act w).queue.calls = r.queue.calls ++ w.calls.map WatchCall.onStore := hcalls
  refine ⟨StoreQueue.serial_foldl_issue h.serial _, ?_, ⟨hw.root, hw.filter, ?_⟩, rfl⟩
  · rw [hmade, h.purposes, ← List.map_append]
    rfl
  · rw [hmade]
    exact (congrArg (List.filterMap _) (List.append_nil _)).trans hw.batches

/-- The queue alone has moved on, without a new call. -/
theorem Follows.moved (h : Follows root filter s r) {q : StoreQueue} (hq : StoreQueue.Serial s.project s.snapshot q)
    (hcalls : q.calls = r.queue.calls) : Follows root filter s { r with queue := q } :=
  ⟨hq, hcalls.trans h.purposes, hcalls ▸ h.asks, h.calls⟩

theorem Follows.ticked (h : Follows root filter s r) : Follows root filter s { r with queue := r.queue.tick } :=
  h.moved (StoreQueue.serial_tick h.serial) (StoreQueue.tick_frame r.queue).1

/-- A job of the store is the store's own affair, or the watch hears how one of its calls has ended. -/
theorem tick_cases (h : Follows root filter s r) :
    (r.queue.tick.told = r.queue.told ∧ r.tick = act { r with queue := r.queue.tick } r.watch) ∨
      ∃ (hlt : r.queue.told.length < r.queue.finished.length) (c : WatchCall),
        c.onStore = r.queue.finished[r.queue.told.length].call ∧
          r.queue.tick.told = r.queue.told ++ [r.queue.finished[r.queue.told.length]] ∧
            r.tick = act { r with queue := r.queue.tick }
              (r.watch.hear c r.queue.finished[r.queue.told.length].answer) := by
  cases StoreQueue.told_tick h.serial with
  | inl hsame =>
    refine .inl ⟨hsame, ?_⟩
    rw [tick, hsame, List.drop_length]
    rfl
  | inr hgrown =>
    obtain ⟨hlt, htold⟩ := hgrown
    obtain ⟨hnumber, hcall, _⟩ := h.serial.turns _ hlt
    rw [h.purposes, List.getElem?_map, Option.map_eq_some_iff] at hcall
    obtain ⟨c, hc, hcall⟩ := hcall
    refine .inr ⟨hlt, c, hcall, htold, ?_⟩
    rw [tick, htold, List.drop_left]
    simp only [List.foldl_cons, List.foldl_nil, hnumber, hc]

theorem follows_tick (h : Follows root filter s r) : Follows root filter s r.tick := by
  cases tick_cases h with
  | inl hown =>
    rw [hown.2]
    exact follows_act h.ticked h.ticked.asks
  | inr hheard =>
    obtain ⟨hlt, c, _, _, htick⟩ := hheard
    rw [htick]
    exact follows_act h.ticked (Watch.asks_hear h.ticked.asks c _)

/-- An event that names a path is a step of the watch, unless the rules cannot judge the path. -/
theorem change_cases (r : WatchedStore) (path : Text) :
    r.apply (.change path) = r ∨ ∃ w, r.watch.notice path = .ok w ∧ r.apply (.change path) = r.act w := by
  cases hw : r.watch.notice path with
  | error f => exact .inl (by rw [apply, hw])
  | ok w => exact .inr ⟨w, rfl, by rw [apply, hw]⟩

theorem follows_apply (h : Follows root filter s r) (e : WatchEvent) : Follows root filter s (r.apply e) := by
  cases e with
  | change path =>
    obtain hsame | ⟨w, hw, hact⟩ := change_cases r path
    · rw [hsame]
      exact h
    · rw [hact]
      exact follows_act h (Watch.asks_notice h.asks hw)
  | trouble reason => exact follows_act h ⟨h.asks.root, h.asks.filter, h.asks.batches⟩
  | expire => exact follows_act h (Watch.asks_expire h.asks)
  | close => exact follows_act h ⟨h.asks.root, h.asks.filter, h.asks.batches⟩
  | tick => exact follows_tick h
  | finish i found trouble =>
    exact h.moved (StoreQueue.serial_finish h.serial i found trouble) (StoreQueue.calls_finish r.queue i found trouble)

theorem follows_run (h : Follows root filter s r) (es : List WatchEvent) : Follows root filter s (r.run es) := by
  induction es generalizing r with
  | nil => exact h
  | cons e rest ih => exact ih (follows_apply h e)

theorem fate_act {w : Watch} {key : Text} {before : List (List Text)} {es : List WatchEvent} (h : w.Fate key before es)
    (r : WatchedStore) : (r.act w).watch.Fate key before es :=
  Watch.fate_congr h rfl rfl rfl

/-- Nothing but an expiry or an end changes what has become of a path that an event has named. -/
theorem fate_apply (h : Follows root filter s r) {key : Text} {before : List (List Text)} {es : List WatchEvent}
    (hfate : r.watch.Fate key before es) (e : WatchEvent) : (r.apply e).watch.Fate key before (es ++ [e]) := by
  cases e with
  | change path =>
    obtain hsame | ⟨w, hw, hact⟩ := change_cases r path
    · rw [hsame]
      exact Watch.fate_mono hfate _
    · rw [hact]
      exact Watch.fate_mono (fate_act (Watch.fate_notice hfate hw) r) _
  | trouble reason =>
    have hsame : (r.watch.trouble reason).Fate key before es := Watch.fate_congr hfate rfl rfl rfl
    exact Watch.fate_mono (fate_act hsame r) _
  | expire => exact Watch.fate_mono (fate_act (Watch.fate_expire hfate) r) _
  | close => exact fate_act (Watch.fate_close hfate) r
  | tick =>
    refine Watch.fate_mono ?_ _
    change r.tick.watch.Fate key before es
    cases tick_cases h with
    | inl hown =>
      rw [hown.2]
      exact fate_act hfate _
    | inr hheard =>
      obtain ⟨hlt, c, _, _, htick⟩ := hheard
      obtain ⟨_, _, hpending, hbatches, hclosed⟩ :=
        Watch.hear_frame r.watch c r.queue.finished[r.queue.told.length].answer
      rw [htick]
      exact fate_act (Watch.fate_congr hfate hbatches hpending hclosed) _
  | finish i found trouble => exact Watch.fate_mono hfate _

theorem run_append (r : WatchedStore) (es es' : List WatchEvent) : r.run (es ++ es') = (r.run es).run es' :=
  List.foldl_append

theorem fate_run (h : Follows root filter s r) {key : Text} {before : List (List Text)}
    (hfate : r.watch.Fate key before []) (es : List WatchEvent) : (r.run es).watch.Fate key before es := by
  induction es using List.reverseRecOn with
  | nil => exact hfate
  | append_singleton es e ih =>
    rw [run_append]
    exact fate_apply (follows_run h es) ih e

/-- A path that the filter accepts waits from the event on that names it. -/
theorem fate_change (h : Follows root filter s r) {path key : Text} (hopen : r.watch.closed = false)
    (hkey : r.watch.keyOf path = key) (haccepts : filter.accepts key = .ok true) :
    (r.apply (.change path)).watch.Fate key r.watch.batches [] := by
  have hnotice : r.watch.notice path = .ok { r.watch with pending := r.watch.pending.add (r.watch.keyOf path) } :=
    Watch.notice_accepted hopen (by rw [h.asks.filter, hkey, haccepts])
  rw [apply, hnotice]
  exact .waiting rfl (PendingChanges.mem_add.mpr (.inr hkey.symm)) rfl

end WatchedStore
end AnnotationIndex
