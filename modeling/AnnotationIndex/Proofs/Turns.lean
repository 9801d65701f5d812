import AnnotationIndex.Proofs.StoreEffect

/-!
The turns of a store. Calls come in at any time, and an operation that has begun ends at any time. Each call follows the
promise that the turn before it is over, and that promise is kept whether the call succeeds or fails: so there is one
operation at a time, in the order of the calls, and each starts from what the last one that succeeded has published.
-/
namespace AnnotationIndex
open Text

namespace Promises
variable {I A : Type} [DecidableEq I] {ps : Promises I A} {p : I} {rs : List (Reaction I A)} {r : Reaction I A}
  {ok : Bool}

theorem put_same (ps : Promises I A) (p : I) (x : Promise I A) : (ps.put p x).promise p = x := if_pos rfl

theorem put_other (ps : Promises I A) {p q : I} (h : q ≠ p) (x : Promise I A) :
    (ps.put p x).promise q = ps.promise q := if_neg h

theorem follow_pending (h : ps.promise p = .pending rs) : ps.follow p r = ps.put p (.pending (rs ++ [r])) := by
  rw [follow, h]

theorem follow_settled (h : ps.promise p = .settled ok) : ps.follow p r = { ps with jobs := ps.jobs ++ [⟨r, ok⟩] } := by
  rw [follow, h]

theorem follow_other (ps : Promises I A) {p q : I} (h : q ≠ p) (r : Reaction I A) :
    (ps.follow p r).promise q = ps.promise q := by
  unfold follow
  split
  · exact put_other ps h _
  · rfl

theorem settle_pending (h : ps.promise p = .pending rs) :
    ps.settle p ok = { ps.put p (.settled ok) with jobs := ps.jobs ++ rs.map fun r => ⟨r, ok⟩ } := by
  rw [settle, h]

end Promises

def StoreEvent.call? : StoreEvent → Option StoreCall
  | issue c => some c
  | _ => none

def Finished.published? (t : Finished) : Option Snapshot := t.answer.toOption.bind StoreAnswer.published?

def leftBy (s : Option Snapshot) (ts : List Finished) : Option Snapshot := ts.foldl (fun s t => t.published?.or s) s

def Finished.Apt (t : Finished) : Prop :=
  ∀ u, t.answer = .ok (.updated u) → ∃ changed cancelled, t.call = .update changed cancelled

namespace StoreQueue
variable {project : Project} {s : Option Snapshot} {q : StoreQueue}

/-- A promise of a turn, pending: if the call of the turn has been made something follows it. -/
def awaited (made : Nat) (rs : Nat → List (Reaction TurnPromise TurnAction)) (turn : Nat) :
    Promise TurnPromise TurnAction :=
  .pending (if turn < made then rs turn else [])

theorem awaited_made (made : Nat) (rs : Nat → List (Reaction TurnPromise TurnAction)) :
    awaited made rs made = .pending [] := congrArg Promise.pending (if_neg (Nat.lt_irrefl made))

theorem awaited_succ (made : Nat) (rs : Nat → List (Reaction TurnPromise TurnAction)) (turn : Nat) :
    awaited (made + 1) rs turn = if turn = made then .pending (rs turn) else awaited made rs turn := by
  unfold awaited
  by_cases h : turn = made
  · rw [if_pos h, if_pos (by omega)]
  · rw [if_neg h]
    exact congrArg Promise.pending (if_congr (by omega) rfl rfl)

def turnJobs (q : StoreQueue) : List (Job TurnPromise TurnAction) :=
  q.promises.jobs.filter fun j => j.reaction.target.isSome

def tellJobs (q : StoreQueue) : List (Job TurnPromise TurnAction) :=
  q.promises.jobs.filter fun j => !j.reaction.target.isSome

/-- Where the first turn that is not over stands: the turn before it is about to be passed on, its call is about to
begin, its call has begun, or there is no such turn. -/
inductive Stage (q : StoreQueue) : Prop
  | passing (turn : Nat) (ok : Bool) (h : q.finished.length = turn + 1)
      (start : q.promises.promise (.start (turn + 1)) =
        awaited q.calls.length (fun i => [StoreQueue.beginning i]) (turn + 1))
      (jobs : q.turnJobs = [⟨StoreQueue.passing turn, ok⟩]) (active : q.active = [])
  | beginning (c : StoreCall) (hc : q.calls[q.finished.length]? = some c)
      (start : q.promises.promise (.start q.finished.length) = .settled true)
      (jobs : q.turnJobs = [⟨StoreQueue.beginning q.finished.length, true⟩]) (active : q.active = [])
  | running (c : StoreCall) (hc : q.calls[q.finished.length]? = some c)
      (start : q.promises.promise (.start q.finished.length) = .settled true)
      (jobs : q.turnJobs = []) (active : q.active = [⟨q.finished.length, c, q.store.snapshot⟩])
  | idle (h : q.finished.length = q.calls.length)
      (start : q.promises.promise (.start q.finished.length) = .settled true)
      (jobs : q.turnJobs = []) (active : q.active = [])

/-- A store whose turns have been taken one at a time and in order, `s` having stood first. -/
structure Serial (project : Project) (s : Option Snapshot) (q : StoreQueue) : Prop where
  stage : q.Stage
  made : q.finished.length ≤ q.calls.length
  answers : ∀ i, q.finished.length ≤ i →
    q.promises.promise (.answer i) = awaited q.calls.length (fun i => [passing i, telling i]) i
  starts : ∀ i, q.finished.length < i →
    q.promises.promise (.start i) = awaited q.calls.length (fun i => [beginning i]) i
  tells : q.tellJobs.map (·.reaction) = (List.range' q.told.length (q.finished.length - q.told.length)).map telling
  told : q.told = q.finished.take q.told.length
  turns : ∀ i (h : i < q.finished.length), q.finished[i].number = i ∧ q.calls[i]? = some q.finished[i].call ∧
    q.finished[i].seen = leftBy s (q.finished.take i) ∧ q.finished[i].Apt
  snapshot : q.store.snapshot = leftBy s q.finished
  project : q.store.project = project

theorem serial_opened (s : Store) : Serial s.project s.snapshot (opened s) where
  stage := .idle rfl rfl rfl rfl
  made := Nat.le_refl 0
  answers _ _ := rfl
  starts i hi := by
    have hne : TurnPromise.start i ≠ .start 0 := fun h => absurd (TurnPromise.start.inj h) (Nat.ne_of_gt hi)
    exact if_neg hne
  tells := rfl
  told := rfl
  turns _ h := absurd h (Nat.not_lt_zero _)
  snapshot := rfl
  project := rfl

section Issue
variable (c : StoreCall)

theorem issue_promises (h : q.promises.promise (.answer q.calls.length) = .pending []) : (q.issue c).promises =
    ((q.promises.follow (.start q.calls.length) (beginning q.calls.length)).put (.answer q.calls.length)
      (.pending [passing q.calls.length])).put (.answer q.calls.length)
        (.pending [passing q.calls.length, telling q.calls.length]) := by
  have hanswer : (q.promises.follow (.start q.calls.length) (beginning q.calls.length)).promise
      (.answer q.calls.length) = .pending [] := (Promises.follow_other _ (by simp) _).trans h
  rw [issue, Promises.follow_pending hanswer]
  exact Promises.follow_pending (Promises.put_same _ _ _)

theorem issue_answer (h : q.promises.promise (.answer q.calls.length) = .pending []) (i : Nat) :
    (q.issue c).promises.promise (.answer i) =
      if i = q.calls.length then .pending [passing i, telling i] else q.promises.promise (.answer i) := by
  rw [issue_promises c h]
  by_cases hi : i = q.calls.length
  · rw [if_pos hi, hi, Promises.put_same]
  · have hne : TurnPromise.answer i ≠ .answer q.calls.length := fun heq => hi (TurnPromise.answer.inj heq)
    rw [if_neg hi, Promises.put_other _ hne, Promises.put_other _ hne, Promises.follow_other _ (by simp)]

theorem issue_start (h : q.promises.promise (.answer q.calls.length) = .pending []) (i : Nat) :
    (q.issue c).promises.promise (.start i) =
      (q.promises.follow (.start q.calls.length) (beginning q.calls.length)).promise (.start i) := by
  rw [issue_promises c h, Promises.put_other _ (by simp), Promises.put_other _ (by simp)]

theorem issue_jobs (h : q.promises.promise (.answer q.calls.length) = .pending []) : (q.issue c).promises.jobs =
    (q.promises.follow (.start q.calls.length) (beginning q.calls.length)).jobs := by
  rw [issue_promises c h]
  rfl

/-- Unless all turns are over, something is to come before the turn of the next call. -/
theorem start_pending (h : Serial project s q) :
    q.promises.promise (.start q.calls.length) = .pending [] ∨
      q.finished.length = q.calls.length ∧ q.promises.promise (.start q.calls.length) = .settled true ∧
        q.turnJobs = [] ∧ q.active = [] := by
  have hlater : q.finished.length < q.calls.length → q.promises.promise (.start q.calls.length) = .pending [] :=
    fun hlt => (h.starts _ hlt).trans (awaited_made _ _)
  cases h.stage with
  | passing turn ok hturn start _ _ =>
    by_cases hlt : q.finished.length < q.calls.length
    · exact .inl (hlater hlt)
    · have hlast : turn + 1 = q.calls.length := by have := h.made; omega
      rw [hlast, awaited_made] at start
      exact .inl start
  | beginning c hc _ _ _ => exact .inl (hlater (List.getElem?_eq_some_iff.mp hc).1)
  | running c hc _ _ _ => exact .inl (hlater (List.getElem?_eq_some_iff.mp hc).1)
  | idle hall start jobs active => exact .inr ⟨hall, hall ▸ start, jobs, active⟩

theorem getElem?_issue {i : Nat} {c' : StoreCall} (hi : q.calls[i]? = some c') : (q.issue c).calls[i]? = some c' :=
  (List.getElem?_append_left (List.getElem?_eq_some_iff.mp hi).1).trans hi

/-- What a new call leaves as it is, and what it adds to where the turns stand. -/
theorem Serial.issued (h : Serial project s q) (stage : (q.issue c).Stage)
    (starts : ∀ i, q.finished.length < i →
      (q.issue c).promises.promise (.start i) = awaited (q.calls.length + 1) (fun i => [beginning i]) i)
    (tells : (q.issue c).tellJobs = q.tellJobs) : Serial project s (q.issue c) := by
  have hlength : (q.issue c).calls.length = q.calls.length + 1 := List.length_append
  refine ⟨stage, Nat.le_trans h.made (by rw [hlength]; omega), fun i hi => ?_, fun i hi => ?_, ?_, h.told,
    fun i hi => ?_,
    h.snapshot, h.project⟩
  · rw [issue_answer c ((h.answers _ h.made).trans (awaited_made _ _)), hlength, awaited_succ, h.answers i hi]
  · rw [hlength, starts i hi]
  · rw [tells]
    exact h.tells
  · obtain ⟨hnumber, hcall, hrest⟩ := h.turns i hi
    exact ⟨hnumber, getElem?_issue c hcall, hrest⟩

/-- A call that is made waits for its turn as long as some turn before it is not over. -/
theorem serial_issue_waiting (h : Serial project s q)
    (hpending : q.promises.promise (.start q.calls.length) = .pending []) : Serial project s (q.issue c) := by
  have hlength : (q.issue c).calls.length = q.calls.length + 1 := List.length_append
  have hanswer : q.promises.promise (.answer q.calls.length) = .pending [] :=
    (h.answers _ h.made).trans (awaited_made _ _)
  have hjobs : (q.issue c).promises.jobs = q.promises.jobs := by
    rw [issue_jobs c hanswer, Promises.follow_pending hpending]
    rfl
  have hturnJobs : (q.issue c).turnJobs = q.turnJobs := congrArg (List.filter _) hjobs
  have hstart : ∀ i, (q.issue c).promises.promise (.start i) =
      if i = q.calls.length then .pending [beginning i] else q.promises.promise (.start i) := by
    intro i
    rw [issue_start c hanswer, Promises.follow_pending hpending]
    by_cases hn : i = q.calls.length
    · rw [if_pos hn, hn, Promises.put_same]
      rfl
    · rw [if_neg hn, Promises.put_other _ fun heq => hn (TurnPromise.start.inj heq)]
  have hawaited : ∀ {i}, q.promises.promise (.start i) = awaited q.calls.length (fun i => [beginning i]) i →
      (q.issue c).promises.promise (.start i) = awaited (q.calls.length + 1) (fun i => [beginning i]) i :=
    fun hi => by rw [hstart, awaited_succ, hi]
  have hsettled : ∀ {i}, q.promises.promise (.start i) = .settled true →
      (q.issue c).promises.promise (.start i) = .settled true := by
    intro i hi
    have hn : i ≠ q.calls.length := by
      rintro rfl
      exact absurd (hpending.symm.trans hi) (by simp)
    rw [hstart, if_neg hn, hi]
  refine h.issued c ?_ (fun i hi => hawaited (h.starts i hi)) (congrArg (List.filter _) hjobs)
  cases h.stage with
  | passing turn ok hturn start jobs active =>
    exact .passing turn ok hturn (hlength ▸ hawaited start) (hturnJobs.trans jobs) active
  | beginning c' hc start jobs active =>
    exact .beginning c' (getElem?_issue c hc) (hsettled start) (hturnJobs.trans jobs) active
  | running c' hc start jobs active =>
    exact .running c' (getElem?_issue c hc) (hsettled start) (hturnJobs.trans jobs) active
  | idle hall start jobs active => exact absurd (hpending.symm.trans (hall ▸ start)) (by simp)

/-- If all turns are over the turn of a call that is made starts. -/
theorem serial_issue_idle (h : Serial project s q) (hall : q.finished.length = q.calls.length)
    (hsettled : q.promises.promise (.start q.calls.length) = .settled true) (hno : q.turnJobs = [])
    (hactive : q.active = []) : Serial project s (q.issue c) := by
  have hanswer : q.promises.promise (.answer q.calls.length) = .pending [] :=
    (h.answers _ h.made).trans (awaited_made _ _)
  have hjobs : (q.issue c).promises.jobs = q.promises.jobs ++ [⟨beginning q.calls.length, true⟩] := by
    rw [issue_jobs c hanswer, Promises.follow_settled hsettled]
  have hstart : ∀ i, (q.issue c).promises.promise (.start i) = q.promises.promise (.start i) := by
    intro i
    rw [issue_start c hanswer, Promises.follow_settled hsettled]
  have hcall : (q.issue c).calls[q.calls.length]? = some c := List.getElem?_concat_length
  refine h.issued c (.beginning c (hall ▸ hcall) ?_ ?_ hactive) (fun i hi => ?_) ?_
  · exact (hstart _).trans (hall ▸ hsettled)
  · have hfinished : (q.issue c).finished.length = q.calls.length := hall
    rw [turnJobs, hjobs, List.filter_append, hfinished]
    exact congrArg (· ++ _) hno
  · rw [hstart, h.starts i hi, awaited_succ, if_neg (by omega)]
  · rw [tellJobs, hjobs, List.filter_append]
    exact List.append_nil _

theorem serial_issue (h : Serial project s q) : Serial project s (q.issue c) := by
  obtain hpending | ⟨hall, hsettled, hno, hactive⟩ := start_pending h
  · exact serial_issue_waiting c h hpending
  · exact serial_issue_idle c h hall hsettled hno hactive

end Issue

section Tick
variable {turn : Nat} {ok : Bool} {j : Job TurnPromise TurnAction} {rest : List (Job TurnPromise TurnAction)}

theorem tick_nil (h : q.promises.jobs = []) : q.tick = q := by
  rw [tick, h]

theorem tick_telling (h : q.promises.jobs = ⟨telling turn, ok⟩ :: rest) : q.tick =
    { q with
      told := q.told ++ (q.finished.find? fun t => t.number == turn).toList
      promises := { q.promises with jobs := rest } } := by
  rw [tick, h]
  cases ok <;> rfl

theorem tick_beginning {c : StoreCall} (h : q.promises.jobs = ⟨beginning turn, true⟩ :: rest)
    (hc : q.calls[turn]? = some c) : q.tick =
      { q with
        active := q.active ++ [⟨turn, c, q.store.snapshot⟩]
        promises := { q.promises with jobs := rest } } := by
  have haction : Job.action ⟨beginning turn, true⟩ = some (.begin turn) := rfl
  simp only [tick, h, haction, hc]

def starting (made turn : Nat) : List (Job TurnPromise TurnAction) :=
  if turn < made then [⟨beginning turn, true⟩] else []

theorem tick_passing (h : q.promises.jobs = ⟨passing turn, ok⟩ :: rest)
    (hstart : q.promises.promise (.start (turn + 1)) = awaited q.calls.length (fun i => [beginning i]) (turn + 1)) :
    q.tick = { q with
      promises := { q.promises.put (.start (turn + 1)) (.settled true) with
        jobs := rest ++ starting q.calls.length (turn + 1) } } := by
  have hsettle : q.tick =
      { q with promises := Promises.settle { q.promises with jobs := rest } (.start (turn + 1)) true } := by
    rw [tick, h]
    cases ok <;> rfl
  have hstarting : starting q.calls.length (turn + 1) =
      (if turn + 1 < q.calls.length then [beginning (turn + 1)] else []).map fun r => ⟨r, true⟩ := by
    unfold starting
    split <;> rfl
  rw [hsettle, Promises.settle_pending (by exact hstart), hstarting]
  rfl

/-- A turn that is over is found by its number. -/
theorem find?_finished (h : Serial project s q) {i : Nat} (hi : i < q.finished.length) :
    (q.finished.find? fun t => t.number == i) = some q.finished[i] := by
  rw [List.find?_eq_some_iff_getElem]
  refine ⟨beq_iff_eq.mpr (h.turns i hi).1, i, hi, rfl, fun k hk => ?_⟩
  have hnumber := (h.turns k (Nat.lt_trans hk hi)).1
  simpa [hnumber] using Nat.ne_of_lt hk

theorem Serial.told_le (h : Serial project s q) : q.told.length ≤ q.finished.length := by
  rw [h.told, List.length_take]
  exact Nat.min_le_right _ _

/-- What the next job is and does: a caller is told of the first outcome that no caller knows of, a turn that is over is
passed on, or a call begins. -/
inductive NextJob (q : StoreQueue) (j : Job TurnPromise TurnAction) (rest : List (Job TurnPromise TurnAction)) : Prop
  | tell (h : q.told.length < q.finished.length) (action : j.action = some (.tell q.told.length))
      (tick : q.tick =
        { q with told := q.told ++ [q.finished[q.told.length]], promises := { q.promises with jobs := rest } })
      (jobs : (rest.filter fun j => j.reaction.target.isSome) = q.turnJobs)
      (tells : (rest.filter fun j => !j.reaction.target.isSome).map (·.reaction) =
        (List.range' (q.told.length + 1) (q.finished.length - (q.told.length + 1))).map telling)
  | pass (turn : Nat) (ok : Bool) (h : q.finished.length = turn + 1) (job : j = ⟨passing turn, ok⟩)
      (tick : q.tick = { q with
        promises := { q.promises.put (.start (turn + 1)) (.settled true) with
          jobs := rest ++ starting q.calls.length (turn + 1) } })
      (active : q.active = []) (jobs : (rest.filter fun j => j.reaction.target.isSome) = [])
      (tells : (rest.filter fun j => !j.reaction.target.isSome) = q.tellJobs)
  | begin (c : StoreCall) (hc : q.calls[q.finished.length]? = some c) (job : j = ⟨beginning q.finished.length, true⟩)
      (start : q.promises.promise (.start q.finished.length) = .settled true)
      (tick : q.tick =
        { q with active := [⟨q.finished.length, c, q.store.snapshot⟩], promises := { q.promises with jobs := rest } })
      (active : q.active = []) (jobs : (rest.filter fun j => j.reaction.target.isSome) = [])
      (tells : (rest.filter fun j => !j.reaction.target.isSome) = q.tellJobs)

theorem nextJob (h : Serial project s q) (hjobs : q.promises.jobs = j :: rest) : NextJob q j rest := by
  cases htarget : j.reaction.target.isSome with
  | false =>
    have hturns : q.turnJobs = rest.filter fun j => j.reaction.target.isSome := by
      rw [turnJobs, hjobs, List.filter_cons_of_neg (by simp [htarget])]
    have htells : q.tellJobs = j :: rest.filter fun j => !j.reaction.target.isSome := by
      rw [tellJobs, hjobs, List.filter_cons_of_pos (by simp [htarget])]
    have hreactions := h.tells
    have htold : q.told.length < q.finished.length := by
      refine Nat.lt_of_not_le fun hle => ?_
      rw [Nat.sub_eq_zero_of_le hle, htells] at hreactions
      exact absurd hreactions (by simp)
    have hcount : q.finished.length - q.told.length = q.finished.length - (q.told.length + 1) + 1 := by omega
    rw [htells, hcount, List.range'_succ, List.map_cons, List.map_cons] at hreactions
    obtain ⟨hreaction, hrest⟩ := List.cons.inj hreactions
    obtain ⟨reaction, ok⟩ := j
    obtain rfl : reaction = telling q.told.length := hreaction
    refine .tell htold (by cases ok <;> rfl) ?_ hturns.symm hrest
    rw [tick_telling hjobs, find?_finished h htold]
    rfl
  | true =>
    have hturns : q.turnJobs = j :: rest.filter fun j => j.reaction.target.isSome := by
      rw [turnJobs, hjobs]
      exact List.filter_cons_of_pos htarget
    have htells : (rest.filter fun j => !j.reaction.target.isSome) = q.tellJobs := by
      rw [tellJobs, hjobs, List.filter_cons_of_neg (by simp [htarget])]
    cases h.stage with
    | passing turn ok hlength start jobs active =>
      obtain ⟨rfl, hrest⟩ := List.cons.inj (hturns.symm.trans jobs)
      exact .pass turn ok hlength rfl (tick_passing hjobs start) active hrest htells
    | beginning c hc start jobs active =>
      obtain ⟨rfl, hrest⟩ := List.cons.inj (hturns.symm.trans jobs)
      refine .begin c hc rfl start ?_ active hrest htells
      rw [tick_beginning hjobs hc, active]
      rfl
    | running c hc start jobs active => exact absurd (hturns.symm.trans jobs) (by simp)
    | idle hall start jobs active => exact absurd (hturns.symm.trans jobs) (by simp)

/-- Where the turns stand has changed, but no turn is over and no caller told. -/
theorem Serial.moved (h : Serial project s q) {active : List Turn} {promises : Promises TurnPromise TurnAction}
    (stage : Stage { q with active, promises })
    (answers : ∀ i, promises.promise (.answer i) = q.promises.promise (.answer i))
    (starts : ∀ i, q.finished.length < i → promises.promise (.start i) = q.promises.promise (.start i))
    (tells : tellJobs { q with active, promises } = q.tellJobs) : Serial project s { q with active, promises } where
  stage := stage
  made := h.made
  answers i hi := (answers i).trans (h.answers i hi)
  starts i hi := (starts i hi).trans (h.starts i hi)
  tells := tells ▸ h.tells
  told := h.told
  turns := h.turns
  snapshot := h.snapshot
  project := h.project

theorem filter_starting (made turn : Nat) :
    (starting made turn).filter (fun j => j.reaction.target.isSome) = starting made turn ∧
      (starting made turn).filter (fun j => !j.reaction.target.isSome) = [] := by
  unfold starting
  split <;> exact ⟨rfl, rfl⟩

theorem serial_tick (h : Serial project s q) : Serial project s q.tick := by
  cases hjobs : q.promises.jobs with
  | nil =>
    rw [tick_nil hjobs]
    exact h
  | cons j rest =>
    cases nextJob h hjobs with
    | tell htold _ htick jobs tells =>
      have hlength : (q.told ++ [q.finished[q.told.length]]).length = q.told.length + 1 := List.length_append
      rw [htick]
      refine ⟨?_, h.made, h.answers, h.starts, ?_, ?_, h.turns, h.snapshot, h.project⟩
      · cases h.stage with
        | passing turn ok hturn start hj active => exact .passing turn ok hturn start (jobs.trans hj) active
        | beginning c hc start hj active => exact .beginning c hc start (jobs.trans hj) active
        | running c hc start hj active => exact .running c hc start (jobs.trans hj) active
        | idle hall start hj active => exact .idle hall start (jobs.trans hj) active
      · rw [hlength]
        exact tells
      · rw [hlength, List.take_succ_eq_append_getElem htold, ← h.told]
    | pass turn ok hlength _ htick active jobs tells =>
      have hstarted : (q.promises.put (.start (turn + 1)) (.settled true)).promise (.start q.finished.length) =
          .settled true := by
        rw [hlength]
        exact Promises.put_same _ _ _
      have hanswer : ∀ i, TurnPromise.answer i ≠ .start (turn + 1) := fun _ => nofun
      have hturnJobs : (rest ++ starting q.calls.length (turn + 1)).filter (fun j => j.reaction.target.isSome) =
          starting q.calls.length (turn + 1) := by
        rw [List.filter_append, jobs, (filter_starting _ _).1, List.nil_append]
      rw [htick]
      refine h.moved ?_ (fun i => Promises.put_other q.promises (hanswer i) (.settled true))
        (fun i hi => Promises.put_other q.promises ?_ (.settled true)) ?_
      · by_cases hmade : turn + 1 < q.calls.length
        · refine .beginning q.calls[turn + 1] ?_ hstarted (hturnJobs.trans ?_) active
          · exact (congrArg (q.calls[·]?) hlength).trans (List.getElem?_eq_getElem hmade)
          · rw [starting, if_pos hmade, hlength]
        · have hall : q.finished.length = q.calls.length := Nat.le_antisymm h.made (by omega)
          exact .idle hall hstarted (hturnJobs.trans (if_neg hmade)) active
      · intro heq
        have := TurnPromise.start.inj heq
        omega
      · rw [tellJobs, List.filter_append, (filter_starting _ _).2, List.append_nil, tells]
    | begin c hc _ start htick _ jobs tells =>
      rw [htick]
      exact h.moved (.running c hc start jobs rfl) (fun _ => rfl) (fun _ _ => rfl) tells

/-- A job does nothing to the calls, the turns that are over and the store. -/
theorem tick_frame (q : StoreQueue) :
    q.tick.calls = q.calls ∧ q.tick.finished = q.finished ∧ q.tick.store = q.store := by
  unfold tick
  split
  · exact ⟨rfl, rfl, rfl⟩
  · dsimp only
    split
    · exact ⟨rfl, rfl, rfl⟩
    · exact ⟨rfl, rfl, rfl⟩
    · exact ⟨rfl, rfl, rfl⟩
    · split <;> exact ⟨rfl, rfl, rfl⟩

/-- Callers are told one by one, in the order in which their calls are over. -/
theorem told_tick (h : Serial project s q) : q.tick.told = q.told ∨
    ∃ hlt : q.told.length < q.finished.length, q.tick.told = q.told ++ [q.finished[q.told.length]] := by
  cases hjobs : q.promises.jobs with
  | nil => exact .inl (by rw [tick_nil hjobs])
  | cons j rest =>
    cases nextJob h hjobs with
    | tell hlt _ htick _ _ => exact .inr ⟨hlt, by rw [htick]⟩
    | pass turn ok _ _ htick _ _ _ => exact .inl (by rw [htick])
    | begin c _ _ _ htick _ _ _ => exact .inl (by rw [htick])

end Tick

section Finish

/-- What a call that has begun comes to, whatever has been published since. -/
theorem outcomeOf_eq (q : StoreQueue) (t : Turn) (found : Disk) (trouble : Option ProjectFault)
    (hproject : q.store.project = project) :
    (q.outcomeOf t found trouble).1.toTurn = t ∧ (q.outcomeOf t found trouble).1.Apt ∧
      (q.outcomeOf t found trouble).2.project = project ∧
      (q.outcomeOf t found trouble).2.snapshot = (q.outcomeOf t found trouble).1.published?.or q.store.snapshot := by
  cases trouble with
  | some f => exact ⟨rfl, nofun, hproject, rfl⟩
  | none =>
    exact ⟨rfl, fun _ hu => StoreCall.eq_update_of_performFrom hu,
      (StoreCall.performFrom_project t.call t.seen _).trans hproject, StoreCall.performFrom_snapshot t.call t.seen _⟩

theorem leftBy_append (s : Option Snapshot) (ts : List Finished) (t : Finished) :
    leftBy s (ts ++ [t]) = t.published?.or (leftBy s ts) := by
  rw [leftBy, List.foldl_append]
  rfl

/-- The call that has begun is over, and what it has come to is the last outcome. -/
theorem finish_running {t : Turn} (hactive : q.active = [t])
    (hanswer : q.promises.promise (.answer t.number) = .pending [passing t.number, telling t.number]) (found : Disk)
    (trouble : Option ProjectFault) {done : Finished} {store : Store}
    (houtcome : q.outcomeOf t found trouble = (done, store)) : q.finish 0 found trouble =
      { q with
        store, active := [], finished := q.finished ++ [done]
        promises := { q.promises.put (.answer t.number) (.settled done.answer.isOk) with
          jobs := q.promises.jobs ++ [⟨passing t.number, done.answer.isOk⟩,
            ⟨telling t.number, done.answer.isOk⟩] } } := by
  rw [finish, hactive]
  simp only [List.getElem?_cons_zero, houtcome, List.eraseIdx_zero, List.tail_cons, Promises.settle_pending hanswer]
  rfl

theorem finish_none {i : Nat} (hactive : q.active.length ≤ i) (found : Disk) (trouble : Option ProjectFault) :
    q.finish i found trouble = q := by
  rw [finish, List.getElem?_eq_none hactive]

/-- What is known of the turns that are over is known of one more. -/
theorem turns_concat {calls : List StoreCall} {ts : List Finished} {t : Finished}
    (h : ∀ i (hi : i < ts.length), ts[i].number = i ∧ calls[i]? = some ts[i].call ∧
      ts[i].seen = leftBy s (ts.take i) ∧ ts[i].Apt)
    (hnumber : t.number = ts.length) (hcall : calls[ts.length]? = some t.call) (hseen : t.seen = leftBy s ts)
    (hapt : t.Apt) (i : Nat) (hi : i < (ts ++ [t]).length) :
    (ts ++ [t])[i].number = i ∧ calls[i]? = some (ts ++ [t])[i].call ∧
      (ts ++ [t])[i].seen = leftBy s ((ts ++ [t]).take i) ∧ (ts ++ [t])[i].Apt := by
  have hlength : (ts ++ [t]).length = ts.length + 1 := List.length_append
  by_cases hlt : i < ts.length
  · rw [List.getElem_append_left hlt, List.take_append_of_le_length (Nat.le_of_lt hlt)]
    exact h i hlt
  · obtain rfl : i = ts.length := by omega
    rw [List.getElem_concat_length rfl, List.take_append_of_le_length (Nat.le_refl _), List.take_length]
    exact ⟨hnumber, hcall, hseen, hapt⟩

/-- A turn is over: what it has published stands, the turn is passed on, and its caller is to be told. -/
theorem Serial.finished (h : Serial project s q) {c : StoreCall} (hc : q.calls[q.finished.length]? = some c)
    (jobs : q.turnJobs = []) {done : Finished} {store : Store} {ok : Bool}
    (hturn : done.toTurn = ⟨q.finished.length, c, q.store.snapshot⟩) (hapt : done.Apt)
    (hproject : store.project = project) (hsnapshot : store.snapshot = done.published?.or q.store.snapshot) :
    Serial project s { q with
      store, active := [], finished := q.finished ++ [done]
      promises := { q.promises.put (.answer q.finished.length) (.settled ok) with
        jobs := q.promises.jobs ++ [⟨passing q.finished.length, ok⟩, ⟨telling q.finished.length, ok⟩] } } := by
  have hmade : q.finished.length < q.calls.length := (List.getElem?_eq_some_iff.mp hc).1
  have htold := h.told_le
  have hlength : (q.finished ++ [done]).length = q.finished.length + 1 := List.length_append
  have hstart : ∀ i, (q.promises.put (.answer q.finished.length) (.settled ok)).promise (.start i) =
      q.promises.promise (.start i) := by
    intro i
    have hne : TurnPromise.start i ≠ .answer q.finished.length := nofun
    exact Promises.put_other q.promises hne (.settled ok)
  constructor
  · refine .passing q.finished.length ok hlength ?_ ?_ rfl
    · exact (hstart _).trans (h.starts _ (Nat.lt_succ_self _))
    · rw [turnJobs, List.filter_append]
      exact congrArg (· ++ _) jobs
  · exact hlength ▸ hmade
  · intro i hi
    rw [hlength] at hi
    have hne : TurnPromise.answer i ≠ .answer q.finished.length := by
      intro heq
      have := TurnPromise.answer.inj heq
      omega
    exact (Promises.put_other q.promises hne (.settled ok)).trans (h.answers i (by omega))
  · intro i hi
    rw [hlength] at hi
    exact (hstart i).trans (h.starts i (by omega))
  · have hrange : List.range' q.told.length (q.finished.length + 1 - q.told.length) =
        List.range' q.told.length (q.finished.length - q.told.length) ++ [q.finished.length] := by
      have hcount : q.finished.length + 1 - q.told.length = q.finished.length - q.told.length + 1 := by omega
      have hlast : q.told.length + 1 * (q.finished.length - q.told.length) = q.finished.length := by omega
      rw [hcount, List.range'_concat, hlast]
    rw [hlength, hrange, List.map_append, tellJobs, List.filter_append, List.map_append]
    exact congrArg (· ++ _) h.tells
  · exact h.told.trans (List.take_append_of_le_length htold).symm
  · exact turns_concat h.turns (congrArg Turn.number hturn) (hc.trans (congrArg (some ·.call) hturn).symm)
      ((congrArg Turn.seen hturn).trans h.snapshot) hapt
  · rw [hsnapshot, leftBy_append, h.snapshot]
  · exact hproject

/-- A call that has not begun is not over; the one that has begun is, whenever that may be. -/
theorem finish_cases (h : Serial project s q) (i : Nat) (found : Disk) (trouble : Option ProjectFault) :
    (q.active.length ≤ i ∧ q.finish i found trouble = q) ∨
      ∃ c done store, q.calls[q.finished.length]? = some c ∧ q.turnJobs = [] ∧ q.active.length = 1 ∧
        q.active[i]? = some ⟨q.finished.length, c, q.store.snapshot⟩ ∧
        q.outcomeOf ⟨q.finished.length, c, q.store.snapshot⟩ found trouble = (done, store) ∧
        q.finish i found trouble = { q with
          store, active := [], finished := q.finished ++ [done]
          promises := { q.promises.put (.answer q.finished.length) (.settled done.answer.isOk) with
            jobs := q.promises.jobs ++
              [⟨passing q.finished.length, done.answer.isOk⟩, ⟨telling q.finished.length, done.answer.isOk⟩] } } := by
  by_cases hi : q.active.length ≤ i
  · exact .inl ⟨hi, finish_none hi found trouble⟩
  · have hbusy : q.active ≠ [] := by
      rintro hactive
      exact hi (by simp [hactive])
    cases h.stage with
    | passing turn ok hlength start jobs active => exact absurd active hbusy
    | beginning c hc start jobs active => exact absurd active hbusy
    | idle hall start jobs active => exact absurd active hbusy
    | running c hc start jobs active =>
      obtain rfl : i = 0 := by
        rw [active, List.length_singleton] at hi
        omega
      have hmade : q.finished.length < q.calls.length := (List.getElem?_eq_some_iff.mp hc).1
      have hanswer : q.promises.promise (.answer q.finished.length) =
          .pending [passing q.finished.length, telling q.finished.length] :=
        (h.answers _ (Nat.le_refl _)).trans (congrArg Promise.pending (if_pos hmade))
      exact .inr ⟨c, _, _, hc, jobs, by rw [active]; rfl, by rw [active]; rfl, rfl,
        finish_running active hanswer found trouble rfl⟩

/-- A call that has begun may be over at any time. -/
theorem serial_finish (h : Serial project s q) (i : Nat) (found : Disk) (trouble : Option ProjectFault) :
    Serial project s (q.finish i found trouble) := by
  cases finish_cases h i found trouble with
  | inl hnone =>
    rw [hnone.2]
    exact h
  | inr hover =>
    obtain ⟨c, done, store, hc, jobs, _, _, houtcome, hfinish⟩ := hover
    obtain ⟨hturn, hapt, hproject, hsnapshot⟩ :=
      outcomeOf_eq q ⟨q.finished.length, c, q.store.snapshot⟩ found trouble h.project
    rw [houtcome] at hturn hapt hproject hsnapshot
    rw [hfinish]
    exact h.finished hc jobs hturn hapt hproject hsnapshot

end Finish

section Run

theorem serial_apply (h : Serial project s q) (e : StoreEvent) : Serial project s (q.apply e) := by
  cases e with
  | issue c => exact serial_issue c h
  | tick => exact serial_tick h
  | finish i found trouble => exact serial_finish h i found trouble

theorem serial_run (h : Serial project s q) (es : List StoreEvent) : Serial project s (q.run es) := by
  induction es generalizing q with
  | nil => exact h
  | cons e rest ih => exact ih (serial_apply h e)

end Run

end StoreQueue
end AnnotationIndex
