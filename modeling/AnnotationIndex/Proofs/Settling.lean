import AnnotationIndex.Proofs.Replay

/-!
How the calls of a store end. As long as there is a job or a call that has begun, doing what comes next brings the
calls nearer to their end, so no call waits for ever; and once nothing is left to do what stands is what all turns
have left, taken in the order of the calls.
-/
namespace AnnotationIndex
open Text

namespace StoreEvent

/-- An event with which the calls that have been made go on, and none meets with trouble. -/
def Smooth : StoreEvent → Prop
  | issue _ => False
  | tick => True
  | finish _ _ trouble => trouble = none

theorem call?_of_smooth {e : StoreEvent} (h : e.Smooth) : e.call? = none := by
  cases e with
  | issue c => exact h.elim
  | tick => rfl
  | finish i found trouble => rfl

end StoreEvent

namespace StoreQueue
variable {project : Project} {s : Option Snapshot} {q : StoreQueue}

section Rest

def Quiet (q : StoreQueue) : Prop := q.promises.jobs = [] ∧ q.active = []

/-- No call is left waiting. -/
theorem finished_of_quiet (h : Serial project s q) (hquiet : q.Quiet) : q.finished.length = q.calls.length := by
  obtain ⟨hjobs, hactive⟩ := hquiet
  have hturns : q.turnJobs = [] := by
    rw [turnJobs, hjobs]
    rfl
  cases h.stage with
  | passing turn ok hlength start jobs active => exact absurd (hturns.symm.trans jobs) (by simp)
  | beginning c hc start jobs active => exact absurd (hturns.symm.trans jobs) (by simp)
  | running c hc start jobs active => exact absurd (hactive.symm.trans active) (by simp)
  | idle hall start jobs active => exact hall

/-- No caller is left waiting. -/
theorem told_of_quiet (h : Serial project s q) (hquiet : q.Quiet) : q.finished.length ≤ q.told.length := by
  have htells := h.tells
  have hnone : q.tellJobs = [] := by
    rw [tellJobs, hquiet.1]
    rfl
  rw [hnone, List.map_nil, List.nil_eq, List.map_eq_nil_iff, List.range'_eq_nil_iff] at htells
  exact Nat.le_of_sub_eq_zero htells

def begins (j : Job TurnPromise TurnAction) : Bool :=
  match j.action with
  | some (.begin _) => true
  | _ => false

/-- How much is left to do: a call that has not begun has four steps before it, and the jobs after it count as they
come up. -/
def remaining (q : StoreQueue) : Nat :=
  4 * (q.calls.length - q.finished.length) + q.promises.jobs.countP (fun j => !begins j) - q.active.length

theorem begins_passing (turn : Nat) (ok : Bool) : begins ⟨passing turn, ok⟩ = false := by
  cases ok <;> rfl

theorem begins_telling (turn : Nat) (ok : Bool) : begins ⟨telling turn, ok⟩ = false := by
  cases ok <;> rfl

theorem countP_starting (made turn : Nat) : (starting made turn).countP (fun j => !begins j) = 0 := by
  unfold starting
  split <;> rfl

theorem calls_finish (q : StoreQueue) (i : Nat) (found : Disk) (trouble : Option ProjectFault) :
    (q.finish i found trouble).calls = q.calls := by
  unfold finish
  split <;> rfl

theorem remaining_tick (h : Serial project s q) {j : Job TurnPromise TurnAction}
    {rest : List (Job TurnPromise TurnAction)}
    (hjobs : q.promises.jobs = j :: rest) : q.tick.remaining < q.remaining := by
  have hmade := h.made
  cases nextJob h hjobs with
  | tell htold action htick _ _ =>
    have hbegins : begins j = false := by rw [begins, action]
    have hactive : q.active.length ≤ 4 * (q.calls.length - q.finished.length) := by
      cases h.stage with
      | running c hc _ _ active =>
        have := (List.getElem?_eq_some_iff.mp hc).1
        rw [active, List.length_singleton]
        omega
      | _ => simp [*]
    rw [htick]
    simp only [remaining, hjobs, List.countP_cons, hbegins, Bool.not_false, if_true]
    omega
  | pass turn ok hlength job htick active _ _ =>
    rw [htick]
    simp only [remaining, hjobs, job, List.countP_cons, List.countP_append, countP_starting, begins_passing,
      Bool.not_false, if_true, active, List.length_nil]
    omega
  | begin c hc job _ htick active _ _ =>
    have := (List.getElem?_eq_some_iff.mp hc).1
    have hbegins : begins ⟨beginning q.finished.length, true⟩ = true := rfl
    rw [htick]
    simp only [remaining, hjobs, job, List.countP_cons, hbegins, active, List.length_nil, List.length_singleton]
    omega

theorem remaining_finish (h : Serial project s q) (hbusy : q.active ≠ []) (found : Disk)
    (trouble : Option ProjectFault) : (q.finish 0 found trouble).remaining < q.remaining := by
  cases finish_cases h 0 found trouble with
  | inl hnone => exact absurd (List.eq_nil_of_length_eq_zero (Nat.le_zero.mp hnone.1)) hbusy
  | inr hover =>
    obtain ⟨c, done, store, hc, _, hactive, _, _, hfinish⟩ := hover
    have hmade := (List.getElem?_eq_some_iff.mp hc).1
    rw [hfinish]
    simp only [remaining, List.countP_append, List.countP_cons, List.countP_nil, begins_passing, begins_telling,
      Bool.not_false, if_true, hactive, List.length_append, List.length_singleton, List.length_nil]
    omega

/-- As long as something is left to do, doing what comes next brings the calls nearer to their end. -/
theorem remaining_advance (h : Serial project s q) (hbusy : ¬q.Quiet) : q.advance.remaining < q.remaining := by
  cases hjobs : q.promises.jobs with
  | nil =>
    rw [advance, hjobs, if_pos List.isEmpty_nil]
    exact remaining_finish h (fun hactive => hbusy ⟨hjobs, hactive⟩) _ _
  | cons j rest =>
    rw [advance, hjobs]
    exact remaining_tick h hjobs

theorem advance_eq_apply (q : StoreQueue) : ∃ e : StoreEvent, q.advance = q.apply e ∧ e.Smooth := by
  unfold advance
  split
  · exact ⟨.finish 0 q.store.disk none, rfl, rfl⟩
  · exact ⟨.tick, rfl, trivial⟩

/-- Every call comes to its end. -/
theorem quiet_run (h : Serial project s q) : ∃ rest : List StoreEvent, (∀ e ∈ rest, e.Smooth) ∧ (q.run rest).Quiet := by
  induction hn : q.remaining using Nat.strongRecOn generalizing q with
  | _ n ih =>
    by_cases hquiet : q.Quiet
    · exact ⟨[], nofun, hquiet⟩
    · obtain ⟨e, he, hsmooth⟩ := advance_eq_apply q
      have hless := remaining_advance h hquiet
      rw [he] at hless
      obtain ⟨rest, hrest, hend⟩ := ih _ (hn ▸ hless) (serial_apply h e) rfl
      exact ⟨e :: rest, List.forall_mem_cons.mpr ⟨hsmooth, hrest⟩, hend⟩

end Rest

section Order

/-- The calls of a run are those that its events make, in their order. -/
theorem calls_run (q : StoreQueue) (es : List StoreEvent) :
    (q.run es).calls = q.calls ++ es.filterMap StoreEvent.call? := by
  induction es generalizing q with
  | nil => exact (List.append_nil _).symm
  | cons e rest ih =>
    have happly : (q.apply e).calls = q.calls ++ (StoreEvent.call? e).toList := by
      cases e with
      | issue c => rfl
      | tick => exact (tick_frame q).1.trans (List.append_nil _).symm
      | finish i found trouble => exact (calls_finish q i found trouble).trans (List.append_nil _).symm
    have hcons : (e :: rest).filterMap StoreEvent.call? =
        (StoreEvent.call? e).toList ++ rest.filterMap StoreEvent.call? := by
      rw [List.filterMap_cons]
      cases StoreEvent.call? e <;> rfl
    change ((q.apply e).run rest).calls = _
    rw [ih, happly, hcons, List.append_assoc]

/-- A turn that fails or finds nothing to load leaves what stood before it. -/
theorem leftBy_unpublished (s : Option Snapshot) {ts : List Finished} {i : Nat} (h : i < ts.length)
    (hnone : (∃ f, ts[i].answer = .error f) ∨ ts[i].answer = .ok (.loaded none)) :
    leftBy s (ts.take (i + 1)) = leftBy s (ts.take i) := by
  have hpublished : ts[i].published? = none := by
    cases hnone with
    | inl herror =>
      obtain ⟨f, hf⟩ := herror
      rw [Finished.published?, hf]
      rfl
    | inr hempty =>
      rw [Finished.published?, hempty]
      rfl
  rw [List.take_succ_eq_append_getElem h, leftBy_append, hpublished, Option.none_or]

/-- An update that starts without a snapshot answers as a build does. -/
theorem built_of_update {found : Disk} {changed : List Text} {cancelled : Bool} {s : Store} (h : s.snapshot = none) :
    (Ending.perform ⟨.update changed cancelled, found, none⟩ s).1 =
      (Store.build cancelled { s with disk := found }).1.map fun n =>
        .updated ⟨n, n.index.files.keys, [], []⟩ := by
  have hperform : (StoreCall.update changed cancelled).perform { s with disk := found } =
      (StoreCall.update changed cancelled).performFrom none { s with disk := found } := by
    rw [StoreCall.perform_apply, h]
  exact congrArg Prod.fst (hperform.trans (StoreCall.performFrom_update_none changed cancelled _))

/-- Calls that are made at any time, each of which may fail, are done one at a time in their order. Each starts from
what the last turn that published anything has left, and what it comes to is what it comes to if all calls are done
one after another, an update that starts from nothing being a build. A turn that fails or finds nothing to load
changes nothing, and the next one is done all the same; what stands is what all turns together have left; and every
call comes to its end. -/
theorem run_serial (project : Project) (disk : Disk) (es : List StoreEvent) :
    let start := opened (Store.opened project disk)
    let q := start.run es
    let ends := start.endings es
    q.calls = es.filterMap StoreEvent.call? ∧
      (q.active = [] ∨ ∃ c, q.calls[q.finished.length]? = some c ∧
        q.active = [⟨q.finished.length, c, leftBy none q.finished⟩]) ∧
      (q.finished.map (·.call) = ends.map (·.call) ∧ (q.answers, q.store) = start.store.inTurn ends) ∧
      (∀ i (h : i < q.finished.length), q.finished[i].number = i ∧ q.calls[i]? = some q.finished[i].call ∧
        q.finished[i].seen = leftBy none (q.finished.take i) ∧
        ((∃ f, q.finished[i].answer = .error f) ∨ q.finished[i].answer = .ok (.loaded none) →
          leftBy none (q.finished.take (i + 1)) = leftBy none (q.finished.take i)) ∧
        ∀ found changed cancelled, ends[i]? = some ⟨.update changed cancelled, found, none⟩ →
          q.finished[i].seen = none →
          q.finished[i].answer =
            (Store.build cancelled { (start.store.inTurn (ends.take i)).2 with disk := found }).1.map fun n =>
              .updated ⟨n, n.index.files.keys, [], []⟩) ∧
      q.store.snapshot = leftBy none q.finished ∧
      (q.promises.jobs = [] → q.active = [] → q.finished.length = q.calls.length) ∧
      ∃ rest : List StoreEvent, (∀ e ∈ rest, e.Smooth) ∧ (q.run rest).finished.length = q.calls.length := by
  intro start q ends
  have hstart : Serial project none start := serial_opened (Store.opened project disk)
  have h : Serial project none q := serial_run hstart es
  obtain ⟨hcalls, hanswers, hstore⟩ := inTurn_run hstart es
  refine ⟨calls_run start es, ?_, ⟨hcalls, Prod.ext hanswers hstore⟩, fun i hi => ?_, h.snapshot,
    fun hjobs hactive => finished_of_quiet h ⟨hjobs, hactive⟩, ?_⟩
  · cases h.stage with
    | passing turn ok hlength start jobs active => exact .inl active
    | beginning c hc start jobs active => exact .inl active
    | running c hc start jobs active => exact .inr ⟨c, hc, h.snapshot ▸ active⟩
    | idle hall start jobs active => exact .inl active
  · obtain ⟨hnumber, hcall, hseen, _⟩ := h.turns i hi
    refine ⟨hnumber, hcall, hseen, leftBy_unpublished none hi, fun found changed cancelled hend hnone => ?_⟩
    have hbefore : (q.finished.take i).map (·.answer) = (start.store.inTurn (ends.take i)).1 := by
      rw [List.map_take, Store.inTurn_take]
      exact congrArg (List.take i) hanswers
    have hsnapshot : (start.store.inTurn (ends.take i)).2.snapshot = none :=
      (Store.snapshot_inTurn _ _ hbefore).trans (hseen.symm.trans hnone)
    have hperformed := Store.getElem?_inTurn start.store ends i
    have hanswer : q.answers[i]? = some q.finished[i].answer := by
      rw [answers, List.getElem?_map, List.getElem?_eq_getElem hi]
      rfl
    rw [hend, Option.map_some] at hperformed
    have hsame := hanswer.symm.trans ((congrArg (·[i]?) hanswers).trans hperformed)
    exact (Option.some.inj hsame).trans (built_of_update hsnapshot)
  · obtain ⟨rest, hsmooth, hquiet⟩ := quiet_run h
    have hsame : (q.run rest).calls = q.calls := by
      rw [calls_run, List.filterMap_eq_nil_iff.mpr fun e he => StoreEvent.call?_of_smooth (hsmooth e he),
        List.append_nil]
    exact ⟨rest, hsmooth, hsame ▸ finished_of_quiet (serial_run h rest) hquiet⟩

end Order

end StoreQueue
end AnnotationIndex
