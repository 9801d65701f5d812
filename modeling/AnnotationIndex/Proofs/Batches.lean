import Mathlib.Algebra.GroupWithZero.Nat
import Mathlib.Data.List.Basic
import AnnotationIndex.Batch

/-!
Work in batches keeps the order of its items and can be stopped between batches. A run starts one batch after the
other, none before the one ahead of it has succeeded; it gives the outcomes of all items in order, or the first
failure, or nothing but the word that it was cancelled.
-/
namespace AnnotationIndex.Batch
variable {α β ε : Type}

/-! ### The batches of a list, and when they are due -/

def batch (s : Nat) (tasks : List (Task α β ε)) (k : Nat) : List (Task α β ε) := (tasks.drop (k * s)).take s

/-- The moment at which the batch `k` is due when all before it succeed: it is then that a run looks whether it is
cancelled. -/
def due (s : Nat) (tasks : List (Task α β ε)) (k : Nat) : Nat :=
  ((List.range k).map fun i => longest (batch s tasks i)).sum

theorem due_succ (s : Nat) (tasks : List (Task α β ε)) (k : Nat) :
    due s tasks (k + 1) = due s tasks k + longest (batch s tasks k) := by
  simp [due, List.range_succ]

theorem duration_le_longest {t : Task α β ε} {ts : List (Task α β ε)} (h : t ∈ ts) : t.duration ≤ longest ts := by
  suffices ∀ n, n ≤ ts.foldl (fun m u => max m u.duration) n ∧
    ∀ u ∈ ts, u.duration ≤ ts.foldl (fun m u => max m u.duration) n from
    (this 0).2 t h
  clear h
  induction ts with
  | nil => simp
  | cons u us ih =>
    intro n
    obtain ⟨hn, hus⟩ := ih (max n u.duration)
    simp only [List.foldl_cons, List.forall_mem_cons]
    exact ⟨by omega, by omega, hus⟩

theorem take_add_batch (s : Nat) (tasks : List (Task α β ε)) (k : Nat) :
    tasks.take (k * s) ++ batch s tasks k = tasks.take ((k + 1) * s) := by
  rw [batch, ← List.take_add, Nat.succ_mul]

theorem flatMap_batch (s : Nat) (tasks : List (Task α β ε)) (n : Nat) :
    (List.range n).flatMap (batch s tasks) = tasks.take (n * s) := by
  induction n with
  | zero => simp
  | succ n ih => rw [List.range_succ, List.flatMap_append, ih, List.flatMap_singleton, take_add_batch]

theorem batch_eq_nil {s : Nat} (hs : 0 < s) {tasks : List (Task α β ε)} {k : Nat} :
    batch s tasks k = [] ↔ tasks.length ≤ k * s := by
  rw [batch, List.take_eq_nil_iff, List.drop_eq_nil_iff, or_iff_right (Nat.ne_of_gt hs)]

theorem batch_cons (n : Nat) (t : Task α β ε) (ts : List (Task α β ε)) (k : Nat) :
    batch (n + 1) (t :: ts) (k + 1) = batch (n + 1) (ts.drop n) k := by
  rw [batch, batch, List.drop_drop, Nat.succ_mul, ← Nat.add_assoc, List.drop_succ_cons, Nat.add_comm (k * (n + 1))]

/-- The pieces that a list is cut into are its batches, as long as there are any. -/
theorem getElem?_chunks (n : Nat) (tasks : List (Task α β ε)) (k : Nat) :
    (chunks n tasks)[k]? = if batch (n + 1) tasks k = [] then none else some (batch (n + 1) tasks k) := by
  fun_induction chunks n tasks generalizing k with
  | case1 => simp [batch]
  | case2 t ts ih =>
    cases k with
    | zero => simp [batch]
    | succ k => rw [List.getElem?_cons_succ, ih, batch_cons]

theorem sum_longest_chunks (n : Nat) (tasks : List (Task α β ε)) (k : Nat) :
    (((chunks n tasks).take k).map longest).sum = due (n + 1) tasks k := by
  induction k with
  | zero => rfl
  | succ k ih =>
    rw [List.take_add_one, List.map_append, List.sum_append, ih, due_succ, getElem?_chunks]
    split
    · next h => simp [h, longest]
    · simp

/-! ### What comes of a batch -/

def Succeeds (t : Task α β ε) : Prop := ∃ b, t.outcome = .ok b

/-- The task of `ts` whose failure comes first: no other fails earlier, and of those that fail with it none was
started earlier. -/
def FailsFirst (ts : List (Task α β ε)) (t : Task α β ε) : Prop :=
  ∃ before after, ts = before ++ t :: after ∧ ¬ Succeeds t ∧
    (∀ u ∈ before, ¬ Succeeds u → t.duration < u.duration) ∧ ∀ u ∈ after, ¬ Succeeds u → t.duration ≤ u.duration

theorem FailsFirst.mem {ts : List (Task α β ε)} {t : Task α β ε} (h : FailsFirst ts t) : t ∈ ts := by
  obtain ⟨before, after, rfl, -⟩ := h
  simp

theorem FailsFirst.duration_le {ts : List (Task α β ε)} {t u : Task α β ε} (h : FailsFirst ts t) (hu : u ∈ ts)
    (hf : ¬ Succeeds u) : t.duration ≤ u.duration := by
  obtain ⟨before, after, rfl, -, hb, ha⟩ := h
  obtain hu | rfl | hu := by simpa using hu
  · exact Nat.le_of_lt (hb u hu hf)
  · exact Nat.le_refl _
  · exact ha u hu hf

theorem FailsFirst.fails {ts : List (Task α β ε)} {t : Task α β ε} (h : FailsFirst ts t) : ¬ Succeeds t := by
  obtain ⟨-, -, -, hf, -⟩ := h
  exact hf

/-- A task in front changes nothing if it succeeds or fails later. -/
theorem FailsFirst.cons {ts : List (Task α β ε)} {t u : Task α β ε} (h : FailsFirst ts t)
    (hu : ¬ Succeeds u → t.duration < u.duration) : FailsFirst (u :: ts) t := by
  obtain ⟨before, after, rfl, ht, hb, ha⟩ := h
  exact ⟨u :: before, after, rfl, ht, List.forall_mem_cons.mpr ⟨hu, hb⟩, ha⟩

/-- A task in front is the first to fail if no other fails before it. -/
theorem FailsFirst.head {ts : List (Task α β ε)} {u : Task α β ε} (hu : ¬ Succeeds u)
    (h : ∀ t ∈ ts, ¬ Succeeds t → u.duration ≤ t.duration) : FailsFirst (u :: ts) u :=
  ⟨[], ts, rfl, hu, by simp, h⟩

theorem FailsFirst.unique {ts : List (Task α β ε)} {t u : Task α β ε} (ht : FailsFirst ts t) (hu : FailsFirst ts u) :
    t = u := by
  have htu := ht.duration_le hu.mem hu.fails
  have hut := hu.duration_le ht.mem ht.fails
  obtain ⟨before, after, rfl, hf, hb, -⟩ := ht
  obtain ⟨before', after', heq, hf', hb', -⟩ := hu
  obtain ⟨ys, rfl, h⟩ | ⟨ys, rfl, h⟩ := List.append_eq_append_iff.mp heq
  · cases ys with
    | nil => exact (List.cons.inj h).1
    | cons y ys =>
      obtain ⟨rfl, -⟩ := List.cons.inj h
      exact absurd (hb' t (by simp) hf) (by omega)
  · cases ys with
    | nil => exact (List.cons.inj h).1.symm
    | cons y ys =>
      obtain ⟨rfl, -⟩ := List.cons.inj h
      exact absurd (hb u (by simp) hf') (by omega)

theorem firstFailure_eq_none {ts : List (Task α β ε)} : firstFailure ts = none ↔ ∀ t ∈ ts, Succeeds t := by
  fun_induction firstFailure ts <;> simp_all [Succeeds]

/-- The failure that a batch reports is that of the task that fails first. -/
theorem exists_failsFirst {ts : List (Task α β ε)} {d : Nat} {e : ε} (h : firstFailure ts = some (d, e)) :
    ∃ t, FailsFirst ts t ∧ t.duration = d ∧ t.outcome = .error e := by
  induction ts generalizing d e with
  | nil => cases h
  | cons u us ih =>
    cases ho : u.outcome with
    | ok b =>
      obtain ⟨t, ht, hd⟩ := ih (by simpa only [firstFailure, ho] using h)
      exact ⟨t, ht.cons fun hu => absurd ⟨b, ho⟩ hu, hd⟩
    | error f =>
      have hu : ¬ Succeeds u := by simp [Succeeds, ho]
      cases hr : firstFailure us with
      | none =>
        simp only [firstFailure, ho, hr, Option.some.injEq, Prod.mk.injEq] at h
        obtain ⟨rfl, rfl⟩ := h
        exact ⟨u, .head hu fun v hv hf => absurd (firstFailure_eq_none.mp hr v hv) hf, rfl, ho⟩
      | some later =>
        obtain ⟨n, g⟩ := later
        obtain ⟨t, ht, rfl, hg⟩ := ih hr
        simp only [firstFailure, ho, hr] at h
        split at h
        · next hle =>
          simp only [Option.some.injEq, Prod.mk.injEq] at h
          obtain ⟨rfl, rfl⟩ := h
          exact ⟨u, .head hu fun v hv hf => Nat.le_trans hle (ht.duration_le hv hf), rfl, ho⟩
        · next hlt =>
          simp only [Option.some.injEq, Prod.mk.injEq] at h
          obtain ⟨rfl, rfl⟩ := h
          exact ⟨t, ht.cons fun _ => Nat.lt_of_not_le hlt, rfl, hg⟩

theorem FailsFirst.firstFailure_eq {ts : List (Task α β ε)} {t : Task α β ε} {e : ε} (h : FailsFirst ts t)
    (he : t.outcome = .error e) : firstFailure ts = some (t.duration, e) := by
  cases hr : firstFailure ts with
  | none => exact absurd (firstFailure_eq_none.mp hr t h.mem) h.fails
  | some first =>
    obtain ⟨u, hu, hd, hf⟩ := exists_failsFirst hr
    obtain rfl := h.unique hu
    rw [he, Except.error.injEq] at hf
    rw [hd, hf]

theorem map_values {ts : List (Task α β ε)} (h : ∀ t ∈ ts, Succeeds t) : (values ts).map .ok = ts.map (·.outcome) := by
  induction ts with
  | nil => rfl
  | cons t ts ih =>
    obtain ⟨⟨b, hb⟩, hts⟩ := List.forall_mem_cons.mp h
    simp only [values, List.filterMap_cons, hb, List.map_cons, List.cons.injEq, true_and]
    exact ih hts

/-! ### A run, batch by batch -/

variable (s : Nat) (cancelled : Nat → Bool) (tasks : List (Task α β ε))

def Passes (n : Nat) : Prop := ∀ k < n, cancelled (due s tasks k) = false ∧ ∀ t ∈ batch s tasks k, Succeeds t

/-- How a run of batches of `s` may end: with the outcomes of all tasks in order; with the failure that comes first
in the batch that is the last one started; or, cancelled by the time a batch is due, with nothing. -/
inductive Ends : BatchRun α β ε → Prop
  | resolved (n : Nat) (vs : List β) :
      Passes s cancelled tasks n → tasks.length ≤ n * s → cancelled (due s tasks n) = false →
      vs.map .ok = tasks.map (·.outcome) → Ends ⟨tasks.map (·.item), .ok vs⟩
  | failed (n : Nat) (t : Task α β ε) (e : ε) : Passes s cancelled tasks n → cancelled (due s tasks n) = false →
      FailsFirst (batch s tasks n) t → t.outcome = .error e →
      Ends ⟨(tasks.take ((n + 1) * s)).map (·.item), .error (.failed e)⟩
  | stopped (n : Nat) : Passes s cancelled tasks n → cancelled (due s tasks n) = true →
      Ends ⟨(tasks.take (n * s)).map (·.item), .error .cancelled⟩

def after (ts : List (Task α β ε)) (r : BatchRun α β ε) : BatchRun α β ε :=
  ⟨ts.map (·.item) ++ r.started, r.result.map (values ts ++ ·)⟩

@[simp] theorem after_nil (r : BatchRun α β ε) : after [] r = r := by
  obtain ⟨started, result | result⟩ := r <;> simp [after, values, Except.map]

theorem after_append (ts us : List (Task α β ε)) (r : BatchRun α β ε) : after (ts ++ us) r = after ts (after us r) := by
  obtain ⟨started, result | result⟩ := r <;> simp [after, values, Except.map]

def remaining (n : Nat) : BatchRun α β ε := runFrom cancelled (due s tasks n) ((chunks (s - 1) tasks).drop n)

variable {s cancelled tasks}

/-- What is left starts with the next batch, if any is left. -/
theorem remaining_eq (hs : 0 < s) (n : Nat) :
    remaining s cancelled tasks n =
      if cancelled (due s tasks n) then ⟨[], .error .cancelled⟩
      else if batch s tasks n = [] then ⟨[], .ok []⟩
      else match firstFailure (batch s tasks n) with
      | some (_, e) => ⟨(batch s tasks n).map (·.item), .error (.failed e)⟩
      | none => after (batch s tasks n) (remaining s cancelled tasks (n + 1)) := by
  obtain ⟨c, rfl⟩ : ∃ c, s = c + 1 := ⟨s - 1, by omega⟩
  have hn := getElem?_chunks c tasks n
  rw [remaining]
  split at hn
  · next hb => rw [Nat.add_sub_cancel, List.drop_eq_nil_of_le (List.getElem?_eq_none_iff.mp hn), runFrom, if_pos hb]
  · next hb =>
    obtain ⟨hlt, hget⟩ := List.getElem?_eq_some_iff.mp hn
    rw [Nat.add_sub_cancel, List.drop_eq_getElem_cons hlt, hget, runFrom, if_neg hb, ← due_succ]
    rfl

theorem Passes.of_succ {n : Nat} (h : Passes s cancelled tasks (n + 1)) : Passes s cancelled tasks n :=
  fun k hk => h k (Nat.lt_succ_of_lt hk)

/-- A batch that passes is put behind. -/
theorem remaining_succ (hs : 0 < s) {n : Nat} (h : Passes s cancelled tasks (n + 1)) :
    remaining s cancelled tasks n = after (batch s tasks n) (remaining s cancelled tasks (n + 1)) := by
  obtain ⟨hc, ht⟩ := h n (Nat.lt_succ_self n)
  rw [remaining_eq hs, hc, firstFailure_eq_none.mpr ht]
  by_cases hb : batch s tasks n = []
  · -- where no batch is left, none is left behind it either
    have hb' : batch s tasks (n + 1) = [] :=
      (batch_eq_nil hs).mpr (by rw [Nat.succ_mul]; have := (batch_eq_nil hs).mp hb; omega)
    have hd : due s tasks (n + 1) = due s tasks n := by rw [due_succ, hb]; rfl
    rw [remaining_eq hs (n + 1), hd, hc, hb, hb', after_nil]
    rfl
  · rw [if_neg hb]
    rfl

/-- A run that gets past `n` batches has started their tasks and holds their values. -/
theorem runFrom_of_passes (hs : 0 < s) {n : Nat} (h : Passes s cancelled tasks n) :
    runFrom cancelled 0 (chunks (s - 1) tasks) = after (tasks.take (n * s)) (remaining s cancelled tasks n) := by
  induction n with
  | zero => rw [Nat.zero_mul, List.take_zero, after_nil]; rfl
  | succ n ih => rw [ih h.of_succ, remaining_succ hs h, ← after_append, take_add_batch]

theorem Passes.succeeds {n : Nat} (h : Passes s cancelled tasks n) : ∀ t ∈ tasks.take (n * s), Succeeds t := by
  intro t ht
  rw [← flatMap_batch, List.mem_flatMap] at ht
  obtain ⟨k, hk, ht⟩ := ht
  exact (h k (List.mem_range.mp hk)).2 t ht

variable (s cancelled tasks) in
/-- A run gets past all batches, or there is one that it gets up to and not past. -/
theorem passes_or (n : Nat) : Passes s cancelled tasks n ∨
    ∃ k < n, Passes s cancelled tasks k ∧ (cancelled (due s tasks k) = true ∨ ∃ t ∈ batch s tasks k, ¬ Succeeds t) := by
  induction n with
  | zero => exact .inl fun k hk => absurd hk (Nat.not_lt_zero k)
  | succ n ih =>
    obtain h | ⟨k, hk, hstop⟩ := ih
    · by_cases hn : cancelled (due s tasks n) = false ∧ ∀ t ∈ batch s tasks n, Succeeds t
      · refine .inl fun k hk => ?_
        obtain hk | rfl := Nat.lt_succ_iff_lt_or_eq.mp hk
        · exact h k hk
        · exact hn
      · refine .inr ⟨n, Nat.lt_succ_self n, h, ?_⟩
        cases hc : cancelled (due s tasks n) with
        | true => exact .inl rfl
        | false => exact .inr (by simpa [hc] using hn)
    · exact .inr ⟨k, Nat.lt_succ_of_lt hk, hstop⟩

/-- Whatever its tasks and whenever it is cancelled, a run ends in one of the ways it may. -/
theorem exists_ends (s : Nat) (hs : 0 < s) (cancelled : Nat → Bool) (tasks : List (Task α β ε)) :
    ∃ r, Ends s cancelled tasks r := by
  have stops {k : Nat} (hp : Passes s cancelled tasks k) (hc : cancelled (due s tasks k) = true) :
      ∃ r, Ends s cancelled tasks r :=
    ⟨_, .stopped k hp hc⟩
  obtain hp | ⟨k, -, hp, hstop⟩ := passes_or s cancelled tasks tasks.length
  · have hall : tasks.length ≤ tasks.length * s := Nat.le_mul_of_pos_right _ hs
    cases hc : cancelled (due s tasks tasks.length) with
    | true => exact stops hp hc
    | false =>
      have hts := hp.succeeds
      rw [List.take_of_length_le hall] at hts
      exact ⟨_, .resolved _ _ hp hall hc (map_values hts)⟩
  · cases hc : cancelled (due s tasks k) with
    | true => exact stops hp hc
    | false =>
      obtain ⟨t, ht, hf⟩ := hstop.resolve_left (by simp [hc])
      cases hr : firstFailure (batch s tasks k) with
      | none => exact absurd (firstFailure_eq_none.mp hr t ht) hf
      | some first =>
        obtain ⟨u, hu, -, he⟩ := exists_failsFirst hr
        exact ⟨_, .failed k u _ hp hc hu he⟩

/-- A run ends as it may end, and in no other way. -/
theorem Ends.eq_runFrom (hs : 0 < s) {r : BatchRun α β ε} (h : Ends s cancelled tasks r) :
    runFrom cancelled 0 (chunks (s - 1) tasks) = r := by
  cases h with
  | resolved n vs hp hall hc hvs =>
    have hts := hp.succeeds
    rw [runFrom_of_passes hs hp, remaining_eq hs, hc, (batch_eq_nil hs).mpr hall]
    rw [List.take_of_length_le hall] at hts ⊢
    have hv : values tasks = vs :=
      List.map_injective_iff.mpr (fun _ _ => Except.ok.inj) ((map_values hts).trans hvs.symm)
    simp [after, hv, Except.map]
  | failed n t e hp hc ht he =>
    rw [runFrom_of_passes hs hp, remaining_eq hs, hc, if_neg (List.ne_nil_of_mem ht.mem), ht.firstFailure_eq he,
      ← take_add_batch]
    simp [after, Except.map]
  | stopped n hp hc =>
    rw [runFrom_of_passes hs hp, remaining_eq hs, hc]
    simp [after, Except.map]

/-! ### What is started when -/

structure Round (α β ε : Type) where
  moment : Nat
  tasks : List (Task α β ε)

def Round.running (r : Round α β ε) (m : Nat) : List (Task α β ε) :=
  r.tasks.filter fun t => r.moment ≤ m ∧ m < r.moment + t.duration

def roundsFrom (cancelled : Nat → Bool) : Nat → List (List (Task α β ε)) → List (Round α β ε)
  | _, [] => []
  | now, batch :: rest =>
    if cancelled now then []
    else ⟨now, batch⟩ :: if (firstFailure batch).isSome then [] else roundsFrom cancelled (now + longest batch) rest

def rounds (concurrency : Int) (cancelled : Nat → Bool) (tasks : List (Task α β ε)) : List (Round α β ε) :=
  roundsFrom cancelled 0 (chunks (size concurrency - 1) tasks)

/-- The rounds are those of the run itself: they hold what it starts, in the order it starts it in. -/
theorem started_runFrom (cancelled : Nat → Bool) (now : Nat) (batches : List (List (Task α β ε))) :
    (runFrom cancelled now batches).started = ((roundsFrom cancelled now batches).flatMap (·.tasks)).map (·.item) := by
  fun_induction roundsFrom cancelled now batches with
  | case1 now => simp only [runFrom]; split <;> rfl
  | case2 now batch rest hc => rw [runFrom, if_pos hc]; rfl
  | case3 now batch rest hc ih =>
    rw [runFrom, if_neg hc]
    cases hf : firstFailure batch with
    | some first => simp
    | none => simp [ih]

theorem getElem?_roundsFrom {cancelled : Nat → Bool} {now : Nat} {batches : List (List (Task α β ε))} {k : Nat}
    {r : Round α β ε} (h : (roundsFrom cancelled now batches)[k]? = some r) :
    batches[k]? = some r.tasks ∧ r.moment = now + ((batches.take k).map longest).sum := by
  fun_induction roundsFrom cancelled now batches generalizing k with
  | case1 => simp at h
  | case2 => simp at h
  | case3 now batch rest hc ih =>
    cases k with
    | zero =>
      obtain rfl := Option.some.inj h
      simp
    | succ k =>
      rw [List.getElem?_cons_succ] at h
      split at h
      · simp at h
      · obtain ⟨hb, hm⟩ := ih h
        refine ⟨hb, ?_⟩
        rw [hm, List.take_succ_cons, List.map_cons, List.sum_cons, Nat.add_assoc]

theorem le_moment {cancelled : Nat → Bool} {now : Nat} {batches : List (List (Task α β ε))} {r : Round α β ε}
    (h : r ∈ roundsFrom cancelled now batches) : now ≤ r.moment := by
  obtain ⟨k, hk⟩ := List.getElem?_of_mem h
  have := (getElem?_roundsFrom hk).2
  omega

def Round.Before (earlier later : Round α β ε) : Prop :=
  ∀ t ∈ earlier.tasks, Succeeds t ∧ earlier.moment + t.duration ≤ later.moment

theorem pairwise_roundsFrom (cancelled : Nat → Bool) (now : Nat) (batches : List (List (Task α β ε))) :
    (roundsFrom cancelled now batches).Pairwise Round.Before := by
  fun_induction roundsFrom cancelled now batches with
  | case1 => exact .nil
  | case2 => exact .nil
  | case3 now batch rest hc ih =>
    refine List.pairwise_cons.mpr ⟨fun r hr t ht => ?_, ?_⟩
    · split at hr
      · simp at hr
      · next hf =>
        have hnow : now + longest batch ≤ r.moment := le_moment hr
        have hlong : t.duration ≤ longest batch := duration_le_longest ht
        exact ⟨firstFailure_eq_none.mp (by simpa using hf) t ht, by dsimp only; omega⟩
    · split
      · exact .nil
      · exact ih

/-- Rounds that wait for each other never run together: at any moment at most one has tasks on their way. -/
theorem length_running_le {s : Nat} (m : Nat) {rs : List (Round α β ε)} (h : rs.Pairwise Round.Before)
    (hs : ∀ r ∈ rs, r.tasks.length ≤ s) : (rs.flatMap (·.running m)).length ≤ s := by
  induction rs with
  | nil => simp
  | cons r rs ih =>
    obtain ⟨hr, hrs⟩ := List.pairwise_cons.mp h
    obtain ⟨hlen, hlens⟩ := List.forall_mem_cons.mp hs
    rw [List.flatMap_cons, List.length_append]
    cases hrun : r.running m with
    | nil => simpa using ih hrs hlens
    | cons t ts =>
      -- one task of this round is still on its way, so no later round has started
      have ht : t ∈ r.running m := by simp [hrun]
      simp only [Round.running, List.mem_filter, decide_eq_true_eq] at ht
      have hrest : rs.flatMap (·.running m) = [] := by
        refine List.flatMap_eq_nil_iff.mpr fun later hl => List.filter_eq_nil_iff.mpr fun u _ => ?_
        have := (hr later hl t ht.1).2
        simp only [decide_eq_true_eq]
        omega
      rw [hrest, List.length_nil, Nat.add_zero, ← hrun]
      exact Nat.le_trans (List.length_filter_le ..) hlen

/-- How tasks are run in batches, whatever comes of them and whenever the run is cancelled. -/
structure Orderly (concurrency : Int) (cancelled : Nat → Bool) (tasks : List (Task α β ε)) : Prop where
  /-- A batch holds as many tasks as are allowed at once, and at least one. -/
  size_eq : (size concurrency : Int) = max 1 concurrency
  /-- The tasks are started in rounds, in order. -/
  started : (run concurrency cancelled tasks).started =
    ((rounds concurrency cancelled tasks).flatMap (·.tasks)).map (·.item)
  /-- Every round is the next batch of the tasks, started when it is due. -/
  inOrder : ∀ k r, (rounds concurrency cancelled tasks)[k]? = some r →
    r.moment = due (size concurrency) tasks k ∧ r.tasks = batch (size concurrency) tasks k
  /-- No round starts before all tasks of those ahead of it have succeeded. -/
  waits : (rounds concurrency cancelled tasks).Pairwise Round.Before
  /-- At no moment are more tasks on their way than a batch holds. -/
  bounded : ∀ m, ((rounds concurrency cancelled tasks).flatMap (·.running m)).length ≤ size concurrency
  /-- The run ends as it may end, which leaves it one way. -/
  ends : ∀ r, run concurrency cancelled tasks = r ↔ Ends (size concurrency) cancelled tasks r

theorem size_pos (concurrency : Int) : 0 < size concurrency := by
  rw [size]
  omega

theorem orderly_run (concurrency : Int) (cancelled : Nat → Bool) (tasks : List (Task α β ε)) :
    Orderly concurrency cancelled tasks := by
  have hs := size_pos concurrency
  have inOrder {k : Nat} {r : Round α β ε} (h : (rounds concurrency cancelled tasks)[k]? = some r) :
      r.moment = due (size concurrency) tasks k ∧ r.tasks = batch (size concurrency) tasks k := by
    obtain ⟨hb, hm⟩ := getElem?_roundsFrom h
    rw [sum_longest_chunks, Nat.zero_add, Nat.sub_add_cancel hs] at hm
    rw [getElem?_chunks, Nat.sub_add_cancel hs] at hb
    split at hb
    · cases hb
    · exact ⟨hm, (Option.some.inj hb).symm⟩
  have waits : (rounds concurrency cancelled tasks).Pairwise Round.Before := pairwise_roundsFrom ..
  refine ⟨by rw [size]; omega, started_runFrom .., fun k r => inOrder, waits,
    fun m => length_running_le m waits fun r hr => ?_,
    fun r => ⟨?_, fun h => h.eq_runFrom hs⟩⟩
  · obtain ⟨k, hk⟩ := List.getElem?_of_mem hr
    rw [(inOrder hk).2]
    exact List.length_take_le ..
  · rintro rfl
    obtain ⟨r, hr⟩ := exists_ends (size concurrency) hs cancelled tasks
    rwa [run, hr.eq_runFrom hs]

end AnnotationIndex.Batch
