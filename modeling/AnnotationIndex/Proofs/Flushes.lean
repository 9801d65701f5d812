import AnnotationIndex.Project.Batcher
import AnnotationIndex.Proofs.Order
import Mathlib.Data.List.Induction

/-!
How a batcher hands over the paths that wait. A timer runs exactly while paths wait, so none is forgotten and none
that has been cleared runs out. What is handed over is what has been added since the last time or since it was
dropped, and each failure is told once, to the one who has to learn of it.
-/
namespace AnnotationIndex
open Text

namespace PendingChanges

theorem mem_add {p : PendingChanges} {key path : Text} : key ∈ (p.add path).paths ↔ key ∈ p.paths ∨ key = path := by
  unfold add
  dsimp only
  split
  · next helem =>
    have hmem : path ∈ p.paths := List.elem_iff.mp helem
    exact ⟨.inl, fun h => h.elim id fun heq => heq ▸ hmem⟩
  · rw [List.mem_append, List.mem_singleton]

theorem due_of_ne_nil {p : PendingChanges} (h : p.paths ≠ []) : p.due = some (sortedSet p.paths) := by
  rw [due, if_neg]
  simpa using h

theorem due_of_mem {p : PendingChanges} {key : Text} (h : key ∈ p.paths) : p.due = some (sortedSet p.paths) :=
  due_of_ne_nil (List.ne_nil_of_mem h)

end PendingChanges

namespace BatcherEvent
variable {ε : Type}

def cause : BatcherEvent ε → FlushCause
  | expire _ => .timer
  | _ => .caller

def step? : BatcherEvent ε → Option ChangeStep
  | add path => some (.add path)
  | cancel => some .cancel
  | drain => some .drain
  | expire _ => some .elapse
  | finish _ _ => none

def endOf? (i : Nat) : BatcherEvent ε → Option (Except ε Unit)
  | finish j outcome => if j = i then some outcome else none
  | _ => none

end BatcherEvent

namespace Batcher
variable {ε : Type} {b : Batcher ε} {e : BatcherEvent ε}

def begun (b : Batcher ε) : List (List Text × FlushCause) := b.flushes.map fun f => (f.paths, f.cause)

def pending (b : Batcher ε) : PendingChanges := ⟨b.waiting, b.timer.isSome⟩

def Fires (b : Batcher ε) (e : BatcherEvent ε) : Prop := b.waiting ≠ [] ∧ (e = .drain ∨ ∃ t ∈ b.running, e = .expire t)

/-- The timer that would be cleared is the only one that runs, and it runs exactly while paths wait. -/
structure Kept (b : Batcher ε) : Prop where
  timers : b.running = b.timer.toList
  armed : b.timer.isSome = !b.waiting.isEmpty
  nodup : b.waiting.Nodup
  known : ∀ f ∈ b.failures, f.flush < b.flushes.length

/-- All that an event can do to a batcher. -/
inductive Effect (b : Batcher ε) : BatcherEvent ε → Batcher ε → Prop
  | added (path : Text) : Effect b (.add path)
      { b with
        waiting := if b.waiting.elem path then b.waiting else b.waiting ++ [path]
        timer := some b.timersSet, running := [b.timersSet], timersSet := b.timersSet + 1 }
  | dropped : Effect b .cancel { b with waiting := [], timer := none, running := [] }
  | flushed {e : BatcherEvent ε} (fires : b.Fires e) : Effect b e
      { b with
        waiting := [], timer := none, running := []
        flushes := b.flushes ++ [⟨b.waiting.mergeSort le, e.cause, none⟩] }
  | idle {e : BatcherEvent ε} (quiet : ¬b.Fires e) (which : e = .drain ∨ ∃ t ∉ b.running, e = .expire t) : Effect b e b
  | ended (i : Nat) (paths : List Text) (cause : FlushCause) (outcome : Except ε Unit)
      (flush : b.flushes[i]? = some ⟨paths, cause, none⟩) : Effect b (.finish i outcome)
      { b with
        flushes := b.flushes.set i ⟨paths, cause, some outcome⟩
        failures := b.failures ++ (failureOf i cause outcome).toList }
  | spent (i : Nat) (outcome : Except ε Unit) (flush : ∀ paths cause, b.flushes[i]? ≠ some ⟨paths, cause, none⟩) :
      Effect b (.finish i outcome) b

section Step

theorem Kept.clearTimer (h : b.Kept) : b.clearTimer = { b with timer := none, running := [] } := by
  have hnone : (b.running.filter fun t => some t != b.timer) = [] := by
    rw [h.timers]
    cases b.timer <;> simp
  rw [Batcher.clearTimer, hnone]

theorem Kept.unarmed (h : b.Kept) (hw : b.waiting = []) : b.timer = none ∧ b.running = [] := by
  have htimer : b.timer = none := by simpa [hw] using h.armed
  exact ⟨htimer, by simp [h.timers, htimer]⟩

theorem Kept.runs (h : b.Kept) {t : Nat} (ht : t ∈ b.running) : b.running = [t] ∧ b.waiting ≠ [] := by
  rw [h.timers, Option.mem_toList] at ht
  have harmed := h.armed
  rw [ht] at harmed
  exact ⟨by rw [h.timers, ht]; rfl, by simpa using harmed.symm⟩

/-- A batcher whose timer has been stopped flushes what waits. -/
theorem effect_fire (hf : b.Fires e) :
    b.Effect e (({ b with timer := none, running := [] } : Batcher ε).fire e.cause) := by
  rw [fire, if_neg (by simpa using hf.1)]
  exact .flushed hf

theorem effect_apply (h : b.Kept) (e : BatcherEvent ε) : b.Effect e (b.apply e) := by
  cases e with
  | add path =>
    rw [apply, h.clearTimer]
    exact .added path
  | cancel =>
    rw [apply, h.clearTimer]
    exact .dropped
  | drain =>
    rw [apply, h.clearTimer]
    by_cases hw : b.waiting = []
    · obtain ⟨htimer, hrunning⟩ := h.unarmed hw
      have hsame : ({ b with timer := none, running := [] } : Batcher ε).fire .caller = b := by
        rw [fire, if_pos (by simpa using hw), ← htimer, ← hrunning]
      rw [hsame]
      exact .idle (fun hf => hf.1 hw) (.inl rfl)
    · exact effect_fire ⟨hw, .inl rfl⟩
  | expire t =>
    by_cases ht : t ∈ b.running
    · obtain ⟨hrunning, hw⟩ := h.runs ht
      have herase : b.running.erase t = [] := by simp [hrunning]
      rw [apply, if_pos (List.elem_iff.mpr ht), herase]
      exact effect_fire ⟨hw, .inr ⟨t, ht, rfl⟩⟩
    · rw [apply, if_neg (mt List.elem_iff.mp ht)]
      refine .idle ?_ (.inr ⟨t, ht, rfl⟩)
      rintro ⟨_, hdrain | ⟨s, hs, he⟩⟩
      · cases hdrain
      · cases he
        exact ht hs
  | finish i outcome =>
    rw [apply, finish]
    split
    · next paths cause hflush => exact .ended i paths cause outcome hflush
    · next hspent => exact .spent i outcome fun paths cause hflush => hspent paths cause hflush

theorem apply_of_fires (h : b.Kept) (hf : b.Fires e) : b.apply e =
    { b with
      waiting := [], timer := none, running := []
      flushes := b.flushes ++ [⟨b.waiting.mergeSort le, e.cause, none⟩] } := by
  have heffect := effect_apply h e
  generalize b.apply e = b' at heffect
  cases heffect with
  | flushed _ => rfl
  | idle hquiet _ => exact absurd hf hquiet
  | _ => exact absurd hf (by simp [Fires])

/-- A demand when nothing waits, and the end of a timer that does not run, change nothing. -/
theorem apply_of_idle (h : b.Kept) (hidle : e = .drain ∧ b.waiting = [] ∨ ∃ t ∉ b.running, e = .expire t) :
    b.apply e = b := by
  have hquiet : ¬b.Fires e := by
    rintro ⟨hw, hwhich⟩
    obtain ⟨rfl, hnil⟩ | ⟨t, ht, rfl⟩ := hidle
    · exact hw hnil
    · obtain ⟨s, hs, he⟩ := hwhich.resolve_left (by simp)
      cases he
      exact ht hs
  have heffect := effect_apply h e
  generalize b.apply e = b' at heffect
  cases heffect with
  | flushed hf => exact absurd hf hquiet
  | idle _ _ => rfl
  | spent _ _ _ => rfl
  | _ => simp at hidle

theorem kept_opened : (opened : Batcher ε).Kept := ⟨rfl, rfl, .nil, fun _ h => nomatch h⟩

theorem kept_apply (h : b.Kept) (e : BatcherEvent ε) : (b.apply e).Kept := by
  have heffect := effect_apply h e
  generalize b.apply e = b' at heffect
  cases heffect with
  | added path =>
    refine ⟨rfl, ?_, ?_, h.known⟩
    · split
      · next hmem => simpa using List.ne_nil_of_mem (List.elem_iff.mp hmem)
      · simp
    · dsimp only
      split
      · exact h.nodup
      · next hnew =>
        refine List.nodup_append.mpr ⟨h.nodup, List.pairwise_singleton _ _, ?_⟩
        rintro p hp q hq rfl
        exact hnew (List.elem_iff.mpr (List.mem_singleton.mp hq ▸ hp))
  | dropped => exact ⟨rfl, rfl, .nil, h.known⟩
  | flushed _ =>
    refine ⟨rfl, rfl, .nil, fun f hf => ?_⟩
    rw [List.length_append]
    exact Nat.lt_add_right _ (h.known f hf)
  | idle _ _ => exact h
  | ended i paths cause outcome hflush =>
    refine ⟨h.timers, h.armed, h.nodup, fun f hf => ?_⟩
    rw [List.length_set]
    cases List.mem_append.mp hf with
    | inl hold => exact h.known f hold
    | inr hnew =>
      cases outcome with
      | ok u => cases hnew
      | error x =>
        obtain rfl := List.mem_singleton.mp hnew
        exact (List.getElem?_eq_some_iff.mp hflush).1
  | spent _ _ _ => exact h

end Step

section Run
variable {past after : List (BatcherEvent ε)} {path : Text}

theorem run_concat (es : List (BatcherEvent ε)) (e : BatcherEvent ε) : run (es ++ [e]) = (run es).apply e :=
  List.foldl_append

theorem run_cons (past after : List (BatcherEvent ε)) (e : BatcherEvent ε) :
    run (past ++ e :: after) = run ((past ++ [e]) ++ after) := by
  rw [List.append_assoc, List.singleton_append]

theorem kept_run (es : List (BatcherEvent ε)) : (run es).Kept := by
  induction es using List.reverseRecOn with
  | nil => exact kept_opened
  | append_singleton es e ih =>
    rw [run_concat]
    exact kept_apply ih e

theorem begun_of_fires (hf : (run past).Fires e) :
    (run (past ++ [e])).begun = (run past).begun ++ [((run past).waiting.mergeSort le, e.cause)] ∧
      (run (past ++ [e])).waiting = [] := by
  rw [run_concat, apply_of_fires (kept_run past) hf]
  exact ⟨List.map_append, rfl⟩

theorem begun_of_quiet (hq : ¬(run past).Fires e) : (run (past ++ [e])).begun = (run past).begun := by
  have heffect := effect_apply (kept_run past) e
  rw [run_concat]
  generalize (run past).apply e = b' at heffect
  cases heffect with
  | added path => rfl
  | dropped => rfl
  | flushed hf => exact absurd hf hq
  | idle _ _ => rfl
  | ended i paths cause outcome hflush =>
    refine List.ext_getElem? fun j => ?_
    simp only [begun, List.getElem?_map, List.getElem?_set]
    split
    · next hij =>
      obtain rfl := hij
      obtain ⟨hlt, hi⟩ := List.getElem?_eq_some_iff.mp hflush
      simp [hlt, hi]
    · rfl
  | spent => rfl

/-- A flush that has begun stays. -/
theorem length_begun_le (past after : List (BatcherEvent ε)) :
    (run past).begun.length ≤ (run (past ++ after)).begun.length := by
  induction after using List.reverseRecOn with
  | nil => simp
  | append_singleton after e ih =>
    rw [← List.append_assoc]
    by_cases hf : (run (past ++ after)).Fires e
    · rw [(begun_of_fires hf).1, List.length_append]
      exact Nat.le_add_right_of_le ih
    · rwa [begun_of_quiet hf]

/-- The path has been added, and since then nothing has been dropped and no flush has begun. -/
def AddedSince (past : List (BatcherEvent ε)) (path : Text) : Prop :=
  ∃ before after, past = before ++ .add path :: after ∧ .cancel ∉ after ∧
    (run (before ++ [.add path])).begun.length = (run past).begun.length

/-- One more event leaves what has been added as it was, unless it adds, drops or hands over. -/
theorem addedSince_concat (hadd : e ≠ .add path) :
    AddedSince (past ++ [e]) path ↔ AddedSince past path ∧ e ≠ .cancel ∧ ¬(run past).Fires e := by
  constructor
  · rintro ⟨before, after, hpast, hcancel, hlength⟩
    have hafter : after ≠ [] := by
      rintro rfl
      exact hadd (List.append_inj_right' hpast rfl |> List.singleton_inj.mp)
    obtain ⟨after, e', rfl⟩ := (List.eq_nil_or_concat after).resolve_left hafter
    rw [List.concat_eq_append, ← List.cons_append, ← List.append_assoc] at hpast
    obtain ⟨rfl, he⟩ := List.append_inj' hpast rfl
    obtain rfl := List.singleton_inj.mp he
    have hle := length_begun_le (before ++ [.add path]) after
    rw [← run_cons] at hle
    have hquiet : ¬(run (before ++ .add path :: after)).Fires e := by
      intro hf
      rw [(begun_of_fires hf).1, List.length_append, List.length_singleton] at hlength
      omega
    rw [begun_of_quiet hquiet] at hlength
    have hcancel' : .cancel ∉ after ∧ e ≠ .cancel := by simpa [eq_comm] using hcancel
    exact ⟨⟨before, after, rfl, hcancel'.1, hlength⟩, hcancel'.2, hquiet⟩
  · rintro ⟨⟨before, after, rfl, hcancel, hlength⟩, he, hquiet⟩
    refine ⟨before, after ++ [e], by simp, ?_, hlength.trans (congrArg List.length (begun_of_quiet hquiet)).symm⟩
    simpa [eq_comm] using ⟨hcancel, he⟩

/-- What has been added since everything was dropped has been added after that. -/
theorem add_mem_of_addedSince {before between : List (BatcherEvent ε)}
    (h : AddedSince (before ++ .cancel :: between) path) : .add path ∈ between := by
  obtain ⟨before', after, hpast, hcancel, _⟩ := h
  obtain ⟨rest, _, hrest⟩ | ⟨rest, _, hrest⟩ := List.append_eq_append_iff.mp hpast
  · cases rest with
    | nil => cases hrest
    | cons e rest =>
      obtain ⟨_, rfl⟩ := List.cons.inj hrest
      exact List.mem_append_right rest List.mem_cons_self
  · cases rest with
    | nil => cases hrest
    | cons e rest =>
      obtain ⟨_, rfl⟩ := List.cons.inj hrest
      exact absurd (List.mem_append_right rest List.mem_cons_self) hcancel

theorem mem_waiting_apply (h : b.Kept) (hadd : e ≠ .add path) :
    path ∈ (b.apply e).waiting ↔ path ∈ b.waiting ∧ e ≠ .cancel ∧ ¬b.Fires e := by
  have heffect := effect_apply h e
  generalize b.apply e = b' at heffect
  cases heffect with
  | added other =>
    have hother : path ≠ other := fun heq => hadd (heq ▸ rfl)
    have hmem : path ∈ (b.pending.add other).paths ↔ path ∈ b.waiting := by
      simp [PendingChanges.mem_add, hother, pending]
    exact hmem.trans (by simp [Fires])
  | dropped => simp
  | flushed hf => simp [hf]
  | idle hquiet hwhich =>
    have hcancel : e ≠ .cancel := by
      rintro rfl
      simp at hwhich
    simp [hquiet, hcancel]
  | ended => simp [Fires]
  | spent => simp [Fires]

theorem mem_waiting_iff (past : List (BatcherEvent ε)) : path ∈ (run past).waiting ↔ AddedSince past path := by
  induction past using List.reverseRecOn with
  | nil =>
    constructor
    · exact fun h => nomatch h
    · rintro ⟨before, after, hpast, _⟩
      exact absurd hpast.symm (by simp)
  | append_singleton past e ih =>
    by_cases hadd : e = .add path
    · obtain rfl := hadd
      have hmem : path ∈ ((run past).pending.add path).paths ↔ path ∈ (run past).pending.paths ∨ path = path :=
        PendingChanges.mem_add
      rw [run_concat]
      exact ⟨fun _ => ⟨past, [], rfl, List.not_mem_nil, by rw [run_concat]⟩, fun _ => hmem.mpr (.inr rfl)⟩
    · rw [run_concat, mem_waiting_apply (kept_run past) hadd, addedSince_concat hadd, ih]

end Run

section Told
variable {past : List (BatcherEvent ε)} {i : Nat} {paths : List Text} {cause : FlushCause}
  {outcome : Option (Except ε Unit)}

theorem Fires.endOf?_eq_none (hf : b.Fires e) (i : Nat) : e.endOf? i = none := by
  obtain ⟨_, rfl | ⟨t, _, rfl⟩⟩ := hf <;> rfl

structure Tells (b : Batcher ε) (i : Nat) (paths : List Text) (cause : FlushCause) (outcome : Option (Except ε Unit)) :
    Prop where
  flush : b.flushes[i]? = some ⟨paths, cause, outcome⟩
  failures : (b.failures.filter fun f => f.flush == i) = (outcome.bind (failureOf i cause)).toList

theorem tells_begun (hf : (run past).Fires e) :
    (run (past ++ [e])).Tells (run past).begun.length ((run past).waiting.mergeSort le) e.cause none := by
  have hkept := kept_run past
  have hlength : (run past).begun.length = (run past).flushes.length := List.length_map _
  rw [run_concat, hlength, apply_of_fires hkept hf]
  refine ⟨List.getElem?_concat_length, List.filter_eq_nil_iff.mpr fun f hfail => ?_⟩
  simpa using Nat.ne_of_lt (hkept.known f hfail)

theorem Tells.of_other (h : b.Tells i paths cause outcome) {b' : Batcher ε} (hflushes : b'.flushes = b.flushes)
    (hfailures : b'.failures = b.failures) (hend : e.endOf? i = none) :
    b'.Tells i paths cause (outcome.or (e.endOf? i)) := by
  rw [hend, Option.or_none]
  exact ⟨hflushes ▸ h.flush, hfailures ▸ h.failures⟩

/-- A flush takes the first end that comes. -/
theorem tells_apply (hb : b.Kept) (h : b.Tells i paths cause outcome) (e : BatcherEvent ε) :
    (b.apply e).Tells i paths cause (outcome.or (e.endOf? i)) := by
  have heffect := effect_apply hb e
  generalize b.apply e = b' at heffect
  cases heffect with
  | added path => exact h.of_other rfl rfl rfl
  | dropped => exact h.of_other rfl rfl rfl
  | flushed hf =>
    rw [hf.endOf?_eq_none, Option.or_none]
    exact ⟨by rw [List.getElem?_append_left (List.getElem?_eq_some_iff.mp h.flush).1]; exact h.flush, h.failures⟩
  | idle _ hwhich =>
    exact h.of_other rfl rfl (by obtain rfl | ⟨t, _, rfl⟩ := hwhich <;> rfl)
  | ended j paths' cause' o hflush =>
    by_cases hji : j = i
    · obtain rfl := hji
      obtain ⟨rfl, rfl, rfl⟩ : paths' = paths ∧ cause' = cause ∧ outcome = none := by
        have hsame := hflush.symm.trans h.flush
        simp only [Option.some.injEq, Flush.mk.injEq] at hsame
        exact ⟨hsame.1, hsame.2.1, hsame.2.2.symm⟩
      rw [BatcherEvent.endOf?, if_pos rfl, Option.none_or]
      refine ⟨List.getElem?_set_self (List.getElem?_eq_some_iff.mp hflush).1, ?_⟩
      rw [List.filter_append, h.failures]
      cases o <;> simp [failureOf]
    · rw [BatcherEvent.endOf?, if_neg hji, Option.or_none]
      refine ⟨(List.getElem?_set_ne hji).trans h.flush, ?_⟩
      rw [List.filter_append, h.failures]
      cases o <;> simp [failureOf, hji]
  | spent j o hspent =>
    by_cases hji : j = i
    · obtain rfl := hji
      cases outcome with
      | none => exact absurd h.flush (hspent paths cause)
      | some o' => exact h
    · rwa [BatcherEvent.endOf?, if_neg hji, Option.or_none]

theorem tells_run (hf : (run past).Fires e) (after : List (BatcherEvent ε)) :
    (run (past ++ e :: after)).Tells (run past).begun.length ((run past).waiting.mergeSort le) e.cause
      (after.findSome? (BatcherEvent.endOf? (run past).begun.length)) := by
  rw [run_cons]
  induction after using List.reverseRecOn with
  | nil =>
    rw [List.append_nil]
    exact tells_begun hf
  | append_singleton after e' ih =>
    rw [← List.append_assoc, run_concat, List.findSome?_append]
    have hone : [e'].findSome? (BatcherEvent.endOf? (run past).begun.length) = e'.endOf? (run past).begun.length := by
      rw [List.findSome?_cons, List.findSome?_nil]
      split <;> simp_all
    rw [hone]
    exact tells_apply (kept_run _) ih e'

end Told

section Steps
variable {s : ChangeStep} {flush : List Text → Except ε Unit}

theorem mergeSort_eq_sortedSet {ts : List Text} (h : ts.Nodup) : ts.mergeSort le = sortedSet ts :=
  eq_of_mem_iff (pairwise_mergeSort_of_nodup h) (pairwise_sortedSet ts)
    fun _ => by rw [mem_sortedSet, List.mem_mergeSort]

def endAtOnce (b : Batcher ε) (flush : List Text → Except ε Unit) (flushed : Option (List Text)) :
    List (BatcherEvent ε) :=
  (flushed.map fun paths => .finish b.flushes.length (flush paths)).toList

/-- The event does what the step of the waiting paths says: the same paths wait afterwards, the same paths are
flushed, and if the flush ends at once the same failure is told to the same one. -/
structure DoneBy (b : Batcher ε) (e : BatcherEvent ε) (flush : List Text → Except ε Unit)
    (result : PendingChanges × ChangeReport ε) : Prop where
  pending : (b.apply e).pending = result.1
  begun : (b.apply e).begun = b.begun ++ (result.2.flushed.map fun paths => (paths, e.cause)).toList
  failures : ((b.endAtOnce flush result.2.flushed).foldl apply (b.apply e)).failures =
    b.failures ++ (result.2.reported.map (FlushFailure.mk b.flushes.length .timer)).toList ++
      (result.2.refused.map (FlushFailure.mk b.flushes.length .caller)).toList

theorem doneBy_fires (h : b.Kept) (hf : b.Fires e) (flush : List Text → Except ε Unit) : b.DoneBy e flush
    (.empty, ⟨some (sortedSet b.waiting),
      if e.cause = .timer then PendingChanges.failureOf flush (some (sortedSet b.waiting)) else none,
      if e.cause = .caller then PendingChanges.failureOf flush (some (sortedSet b.waiting)) else none⟩) := by
  have happly := apply_of_fires h hf
  rw [mergeSort_eq_sortedSet h.nodup] at happly
  refine ⟨by rw [happly]; rfl, by rw [happly]; simp [begun], ?_⟩
  rw [happly]
  simp only [endAtOnce, Option.map_some, Option.toList_some, List.foldl_cons, List.foldl_nil, apply, finish,
    List.getElem?_concat_length, PendingChanges.failureOf]
  cases flush (sortedSet b.waiting) <;> cases e.cause <;> simp [failureOf]

theorem doneBy_step (h : b.Kept) (hs : e.step? = some s) (ht : ∀ t, e = .expire t → t ∈ b.running)
    (flush : List Text → Except ε Unit) : b.DoneBy e flush (b.pending.step flush s) := by
  cases e with
  | add path =>
    obtain rfl := Option.some.inj hs
    exact ⟨rfl, (List.append_nil _).symm, by simp [PendingChanges.step, endAtOnce, apply, clearTimer, setTimer]⟩
  | cancel =>
    obtain rfl := Option.some.inj hs
    exact ⟨rfl, (List.append_nil _).symm, by simp [PendingChanges.step, endAtOnce, apply, clearTimer]⟩
  | drain =>
    obtain rfl := Option.some.inj hs
    by_cases hw : b.waiting = []
    · have hdue : b.pending.due = none := by simp [PendingChanges.due, pending, hw]
      have hsame := apply_of_idle h (.inl ⟨rfl, hw⟩)
      have hempty : b.pending = .empty := by rw [pending, hw, (h.unarmed hw).1]; rfl
      rw [PendingChanges.step, hdue]
      refine ⟨by rw [hsame, hempty], by rw [hsame]; simp, by rw [hsame]; simp [endAtOnce, PendingChanges.failureOf]⟩
    · have hdue : b.pending.due = some (sortedSet b.waiting) := PendingChanges.due_of_ne_nil hw
      rw [PendingChanges.step, hdue]
      exact doneBy_fires h ⟨hw, .inl rfl⟩ flush
  | expire t =>
    obtain rfl := Option.some.inj hs
    have htimer := ht t rfl
    obtain ⟨_, hw⟩ := h.runs htimer
    have hdue : b.pending.due = some (sortedSet b.waiting) := PendingChanges.due_of_ne_nil hw
    have harmed : b.pending.armed = true := h.armed.trans (by simpa using hw)
    rw [PendingChanges.step, if_pos harmed, hdue]
    exact doneBy_fires h ⟨hw, .inr ⟨t, htimer, rfl⟩⟩ flush
  | finish i outcome => cases hs

end Steps

/-- All that has to hold of an event in a history: what it leaves behind, what it hands over, and who learns of a
failure. -/
structure HandsOver (past : List (BatcherEvent ε)) (e : BatcherEvent ε) (after : List (BatcherEvent ε)) : Prop where
  /-- One timer runs if paths wait, and none otherwise. -/
  armed : (run (past ++ [e])).running.length = if (run (past ++ [e])).waiting = [] then 0 else 1
  idle : e = .drain ∧ (run past).waiting = [] ∨ (∃ t ∉ (run past).running, e = .expire t) →
    run (past ++ [e]) = run past
  quiet : ¬(run past).Fires e → (run (past ++ [e])).begun = (run past).begun
  flushed : (run past).Fires e → ∃ paths, (run (past ++ [e])).begun = (run past).begun ++ [(paths, e.cause)] ∧
    paths ≠ [] ∧ (paths.Pairwise fun p q => lt p q = true) ∧ (∀ p, p ∈ paths ↔ AddedSince past p) ∧
    (∀ before between, past = before ++ .cancel :: between → ∀ p ∈ paths, .add p ∈ between) ∧
    (run (past ++ [e])).waiting = []
  /-- The first end of a flush counts: if it is a failure, that is told once, and to the one whom the cause names. -/
  told : (run past).Fires e → ((run (past ++ e :: after)).failures.filter fun f => f.flush == (run past).begun.length) =
    ((after.findSome? (BatcherEvent.endOf? (run past).begun.length)).bind
      (failureOf (run past).begun.length e.cause)).toList
  /-- The end of a flush leaves the paths and timers alone. -/
  ended : ∀ i outcome, e = .finish i outcome → (run (past ++ [e])).waiting = (run past).waiting ∧
    (run (past ++ [e])).timer = (run past).timer ∧ (run (past ++ [e])).running = (run past).running
  steps : ∀ s flush, e.step? = some s → (∀ t, e = .expire t → t ∈ (run past).running) →
    (run past).DoneBy e flush ((run past).pending.step flush s)

/-- Whatever happens to a batcher, every path that is added waits under a timer until it is handed over or dropped. -/
theorem handsOver_run (past : List (BatcherEvent ε)) (e : BatcherEvent ε) (after : List (BatcherEvent ε)) :
    HandsOver past e after where
  armed := by
    have hkept := kept_run (past ++ [e])
    have harmed := hkept.armed
    rw [hkept.timers]
    cases htimer : (run (past ++ [e])).timer with
    | none => rw [if_pos (by simpa [htimer] using harmed)]; rfl
    | some t => rw [if_neg (by simpa [htimer] using harmed)]; rfl
  idle h := by rw [run_concat, apply_of_idle (kept_run past) h]
  quiet hq := begun_of_quiet hq
  flushed hf := by
    obtain ⟨hbegun, hwaiting⟩ := begun_of_fires hf
    have hmem : ∀ p, p ∈ (run past).waiting.mergeSort le ↔ AddedSince past p := fun p => by
      rw [List.mem_mergeSort, mem_waiting_iff]
    refine ⟨_, hbegun, ?_, pairwise_mergeSort_of_nodup (kept_run past).nodup, hmem, ?_, hwaiting⟩
    · exact fun hnil => hf.1 (List.nil_perm.mp (hnil ▸ List.mergeSort_perm _ le))
    · rintro before between rfl p hp
      exact add_mem_of_addedSince ((hmem p).mp hp)
  told hf := (tells_run hf after).failures
  ended i outcome he := by
    obtain rfl := he
    rw [run_concat, apply, finish]
    split <;> exact ⟨rfl, rfl, rfl⟩
  steps s flush hs ht := doneBy_step (kept_run past) hs ht flush

end Batcher
end AnnotationIndex
