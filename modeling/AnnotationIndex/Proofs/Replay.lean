import AnnotationIndex.Proofs.Turns

/-!
What the turns of a store come to. A call that has begun sees what stands when it is over, so it might as well be
performed at once: the answers and the store are those of the calls done one after another, each on the files that
it has found.
-/
namespace AnnotationIndex

/-- A call that is over: the files that it has found, and the trouble that it has met, if any. -/
structure Ending where
  call : StoreCall
  found : Disk
  trouble : Option ProjectFault

namespace Ending

/-- A call that is begun and over at once. It fails with the trouble that it meets; without any it is performed. -/
def perform (e : Ending) (s : Store) : Except ProjectFault StoreAnswer × Store :=
  match e.trouble with
  | some f => (.error f, { s with disk := e.found })
  | none => e.call.perform { s with disk := e.found }

/-- What a call publishes stands afterwards, and what stood before it if it publishes nothing. -/
theorem perform_snapshot (e : Ending) (s : Store) : (e.perform s).2.snapshot =
    ((e.perform s).1.toOption.bind StoreAnswer.published?).or s.snapshot := by
  unfold perform
  split
  · rfl
  · exact StoreCall.performFrom_snapshot e.call s.snapshot _

end Ending

namespace Store

def inTurn (s : Store) : List Ending → List (Except ProjectFault StoreAnswer) × Store
  | [] => ([], s)
  | e :: es =>
    let (answer, after) := e.perform s
    let (answers, last) := after.inTurn es
    (answer :: answers, last)

/-- A call is performed on what the calls before it have left. -/
theorem getElem?_inTurn (s : Store) (es : List Ending) (i : Nat) :
    (s.inTurn es).1[i]? = es[i]?.map fun e => (e.perform (s.inTurn (es.take i)).2).1 := by
  induction es generalizing s i with
  | nil => rfl
  | cons e es ih =>
    cases i with
    | zero => rfl
    | succ i => exact ih (e.perform s).2 i

theorem inTurn_take (s : Store) (es : List Ending) (i : Nat) :
    (s.inTurn (es.take i)).1 = (s.inTurn es).1.take i := by
  induction es generalizing s i with
  | nil => cases i <;> rfl
  | cons e es ih =>
    cases i with
    | zero => rfl
    | succ i => exact congrArg (_ :: ·) (ih (e.perform s).2 i)

/-- What stands after calls is what the turns have left that have come to their answers. -/
theorem snapshot_inTurn (s : Store) (es : List Ending) {ts : List Finished} (h : ts.map (·.answer) = (s.inTurn es).1) :
    (s.inTurn es).2.snapshot = leftBy s.snapshot ts := by
  induction es generalizing s ts with
  | nil =>
    rw [List.map_eq_nil_iff.mp h]
    rfl
  | cons e es ih =>
    obtain ⟨t, ts, rfl, (hanswer : t.answer = (e.perform s).1), hrest⟩ := List.map_eq_cons_iff.mp h
    have hpublished : t.published?.or s.snapshot = (e.perform s).2.snapshot := by
      rw [e.perform_snapshot s, Finished.published?, hanswer]
    have hleft : leftBy s.snapshot (t :: ts) = leftBy (t.published?.or s.snapshot) ts := rfl
    rw [hleft, hpublished]
    exact ih (e.perform s).2 hrest

end Store

namespace StoreQueue
variable {project : Project} {s : Option Snapshot} {q : StoreQueue}

def ending? (q : StoreQueue) : StoreEvent → Option Ending
  | .finish i found trouble => q.active[i]?.map fun t => ⟨t.call, found, trouble⟩
  | _ => none

def endings (q : StoreQueue) : List StoreEvent → List Ending
  | [] => []
  | e :: es => (q.ending? e).toList ++ (q.apply e).endings es

/-- A call that has seen what stands is simply performed on the files that are found. -/
theorem outcomeOf_performed (q : StoreQueue) (turn : Nat) (c : StoreCall) (found : Disk)
    (trouble : Option ProjectFault) :
    q.outcomeOf ⟨turn, c, q.store.snapshot⟩ found trouble =
      (⟨⟨turn, c, q.store.snapshot⟩, (Ending.perform ⟨c, found, trouble⟩ q.store).1⟩,
        (Ending.perform ⟨c, found, trouble⟩ q.store).2) := by
  cases trouble <;> rfl

/-- With an event a call is over, and has been performed, or none is. -/
theorem apply_ending (h : Serial project s q) (e : StoreEvent) :
    (q.ending? e = none ∧ (q.apply e).finished = q.finished ∧ (q.apply e).store = q.store) ∨
      ∃ x done, q.ending? e = some x ∧ (q.apply e).finished = q.finished ++ [done] ∧ done.call = x.call ∧
        done.answer = (x.perform q.store).1 ∧ (q.apply e).store = (x.perform q.store).2 := by
  cases e with
  | issue c => exact .inl ⟨rfl, rfl, rfl⟩
  | tick => exact .inl ⟨rfl, (tick_frame q).2⟩
  | finish i found trouble =>
    cases finish_cases h i found trouble with
    | inl hnone =>
      have hending : q.ending? (.finish i found trouble) = none := by
        rw [ending?, List.getElem?_eq_none hnone.1]
        rfl
      exact .inl ⟨hending, congrArg finished hnone.2, congrArg store hnone.2⟩
    | inr hover =>
      obtain ⟨c, done, store, _, _, _, hactive, houtcome, hfinish⟩ := hover
      rw [outcomeOf_performed] at houtcome
      obtain ⟨rfl, rfl⟩ := Prod.mk.inj houtcome
      have hending : q.ending? (.finish i found trouble) = some ⟨c, found, trouble⟩ := by
        rw [ending?, hactive]
        rfl
      exact .inr ⟨_, _, hending, congrArg finished hfinish, rfl, rfl, congrArg StoreQueue.store hfinish⟩

/-- The calls of a run that are over have been done one after another. -/
theorem inTurn_run (h : Serial project s q) (es : List StoreEvent) :
    (q.run es).finished.map (·.call) = q.finished.map (·.call) ++ (q.endings es).map (·.call) ∧
      (q.run es).answers = q.answers ++ (q.store.inTurn (q.endings es)).1 ∧
      (q.run es).store = (q.store.inTurn (q.endings es)).2 := by
  induction es generalizing q with
  | nil => exact ⟨(List.append_nil _).symm, (List.append_nil _).symm, rfl⟩
  | cons e es ih =>
    obtain ⟨hcalls, hanswers, hstore⟩ := ih (serial_apply h e)
    have hrun : q.run (e :: es) = (q.apply e).run es := rfl
    rw [hrun, hcalls, hanswers, hstore, endings, answers, answers]
    cases apply_ending h e with
    | inl hnone =>
      obtain ⟨hending, hfinished, hsame⟩ := hnone
      rw [hending, hfinished, hsame]
      exact ⟨rfl, rfl, rfl⟩
    | inr hover =>
      obtain ⟨x, done, hending, hfinished, hcall, hanswer, hafter⟩ := hover
      have hdone : (done.answer :: ((x.perform q.store).2.inTurn ((q.apply e).endings es)).1) =
          (q.store.inTurn (x :: (q.apply e).endings es)).1 := congrArg (· :: _) hanswer
      rw [hending, hfinished, hafter]
      refine ⟨?_, ?_, rfl⟩
      · rw [List.map_append, List.append_assoc, List.map_singleton, hcall]
        rfl
      · rw [List.map_append, List.append_assoc, List.map_singleton]
        exact congrArg (_ ++ ·) hdone

end StoreQueue
end AnnotationIndex
