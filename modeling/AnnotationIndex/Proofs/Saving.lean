import AnnotationIndex.Proofs.Handover

/-!
A watched project is saved. After each update that succeeds the watch asks for a save, but only when it is told of
the update, and other batches may have come in between. So a save is due from every update on until a save is over
that comes after it in the queue: when nothing is left to do the file of the store holds what stands in the store.
-/
namespace AnnotationIndex
open Text

theorem Disk.text?_write (d : Disk) (path text : Text) : (d.write path text).text? path = some text := by
  have hremoved : (d.files.filter fun f => f.1 != path).lookup path = none := by
    rw [List.lookup_eq_none_iff]
    intro f hf
    rw [bne_comm]
    exact (List.mem_filter.mp hf).2
  have happend : (d.write path text).text? path =
      ((d.files.filter fun f => f.1 != path).lookup path).or ([(path, text)].lookup path) := List.lookup_append
  rw [happend, hremoved, Option.none_or, List.lookup_cons_self]

namespace StoreQueue
variable {project : Project} {s : Option Snapshot} {q q' : StoreQueue} {kept kept' : Snapshot → Prop}

/-- A save is due: one has been asked for and is not over, or an update has succeeded and its caller is still to be
told. -/
inductive SaveDue (q : StoreQueue) : Prop
  | untold (t : Finished) (h : t ∈ q.finished.drop q.told.length) (u : StoreUpdate)
      (answer : t.answer = .ok (.updated u))
  | asked (h : .save ∈ q.calls.drop q.finished.length)

def file (q : StoreQueue) : Option Text := q.store.disk.text? q.store.project.cacheFile

def SavesDone (q : StoreQueue) : Prop := ∀ t ∈ q.finished, t.call = .save → ∃ a, t.answer = .ok a

def Updated (q : StoreQueue) : Prop := ∃ t ∈ q.finished, ∃ u, t.answer = .ok (.updated u)

/-- If no save fails then from the first update that succeeds a save is due or what stands has been kept. -/
def InStep (kept : Snapshot → Prop) (q : StoreQueue) : Prop :=
  q.SavesDone → q.Updated → q.SaveDue ∨ ∃ n, q.store.snapshot = some n ∧ kept n

theorem InStep.mono (h : q.InStep kept) (hkept : ∀ n, kept n → kept' n) : q.InStep kept' :=
  fun hsaves hupdated => (h hsaves hupdated).imp_right fun ⟨n, hn, hstands⟩ => ⟨n, hn, hkept n hstands⟩

/-- Calls may be made and callers be told, if a save is asked for when the caller of an update is told. -/
theorem inStep_moved (h : q.InStep kept) {cs : List StoreCall} (hcalls : q'.calls = q.calls ++ cs)
    (hmade : q.finished.length ≤ q.calls.length) (hfinished : q'.finished = q.finished) (hstore : q'.store = q.store)
    (htold : ∀ t ∈ q.finished.drop q.told.length, ∀ u, t.answer = .ok (.updated u) →
      t ∈ q.finished.drop q'.told.length ∨ .save ∈ cs) : q'.InStep kept := by
  intro hsaves hupdated
  have hdrop : q'.calls.drop q'.finished.length = q.calls.drop q.finished.length ++ cs := by
    rw [hcalls, hfinished, List.drop_append_of_le_length hmade]
  rw [SavesDone, hfinished] at hsaves
  rw [Updated, hfinished] at hupdated
  cases h hsaves hupdated with
  | inl hdue =>
    refine .inl ?_
    cases hdue with
    | untold t ht u answer =>
      cases htold t ht u answer with
      | inl hstill => exact .untold t (hfinished ▸ hstill) u answer
      | inr hsave => exact .asked (hdrop ▸ List.mem_append_right _ hsave)
    | asked hsave => exact .asked (hdrop ▸ List.mem_append_left _ hsave)
  | inr hkept =>
    rw [hstore]
    exact .inr hkept

theorem inStep_foldl_issue (h : q.InStep kept) (hmade : q.finished.length ≤ q.calls.length) (cs : List StoreCall) :
    (cs.foldl issue q).InStep kept := by
  obtain ⟨hcalls, hfinished, htold, hstore⟩ := foldl_issue q cs
  exact inStep_moved h hcalls hmade hfinished hstore fun t ht _ _ => .inl (htold ▸ ht)

/-- How a call of a watch ends: it fails and leaves what stands, it is an update, or it is a save and the document
of what stands is in the file. -/
inductive Ended (q : StoreQueue) (c : StoreCall) (found : Disk) (done : Finished) (store : Store) : Prop
  | failed (f : ProjectFault) (answer : done.answer = .error f) (snapshot : store.snapshot = q.store.snapshot)
      (disk : store.disk = found)
  | updated (u : StoreUpdate) (answer : done.answer = .ok (.updated u))
  | saved (call : c = .save) (n : Snapshot) (snapshot : store.snapshot = some n)
      (disk : store.disk.text? q.store.project.cacheFile = some n.index.write)

theorem ended_outcomeOf (q : StoreQueue) (c : WatchCall) (turn : Nat) (found : Disk) (trouble : Option ProjectFault)
    {done : Finished} {store : Store}
    (h : q.outcomeOf ⟨turn, c.onStore, q.store.snapshot⟩ found trouble = (done, store)) :
    Ended q c.onStore found done store := by
  cases trouble with
  | some f =>
    obtain ⟨rfl, rfl⟩ := Prod.mk.inj h
    exact .failed f rfl rfl rfl
  | none =>
    let before : Store := { q.store with disk := found }
    obtain ⟨rfl, rfl⟩ := Prod.mk.inj h
    have hfailed : ∀ f, (c.onStore.performFrom q.store.snapshot before).1 = .error f →
        (c.onStore.performFrom q.store.snapshot before).2.snapshot = q.store.snapshot := by
      intro f hf
      rw [StoreCall.performFrom_snapshot, hf]
      rfl
    cases c with
    | update batch =>
      have hanswer := congrArg Prod.fst (StoreCall.performFrom_update q.store.snapshot batch false before)
      have hother : StoreCall.update batch false ≠ .save := nofun
      cases hupdate : (Store.updateFrom q.store.snapshot batch false before).1 with
      | ok u => exact .updated u (hanswer.trans (by rw [hupdate]; rfl))
      | error f =>
        rw [hupdate] at hanswer
        exact .failed f hanswer (hfailed f hanswer) (StoreCall.effect_performFrom hother q.store.snapshot before).disk
    | save u =>
      obtain ⟨hanswer, hperform⟩ := Prod.mk.inj (StoreCall.performFrom_save q.store.snapshot before)
      obtain ⟨_, hsnapshot, ⟨⟨f, hf⟩, hsame⟩ | ⟨_, n, hn, hwritten⟩⟩ := Store.saveFrom_apply q.store.snapshot before
      · rw [hf] at hanswer
        exact .failed f hanswer (hfailed f hanswer) ((congrArg Store.disk hperform).trans hsame)
      · refine .saved rfl n ((congrArg Store.snapshot hperform).trans (hsnapshot.trans hn)) ?_
        have hdisk := (congrArg Store.disk hperform).trans hwritten
        exact hdisk ▸ Disk.text?_write before.disk before.project.cacheFile n.index.write

/-- A call that fails, and that is not a save, leaves what is due and what has been kept. -/
theorem inStep_failed (h : q.InStep kept) (htold_le : q.told.length ≤ q.finished.length) {done : Finished}
    (hc : q.calls[q.finished.length]? = some done.call) {f : ProjectFault} (answer : done.answer = .error f)
    (hcalls : q'.calls = q.calls) (hfinished : q'.finished = q.finished ++ [done]) (htold : q'.told = q.told)
    (hsnapshot : q'.store.snapshot = q.store.snapshot) (hkept : ∀ n, kept n → kept' n) : q'.InStep kept' := by
  intro hsaves hupdated
  rw [SavesDone, hfinished] at hsaves
  rw [Updated, hfinished] at hupdated
  have hother : done.call ≠ .save := by
    intro heq
    obtain ⟨a, ha⟩ := hsaves done (List.mem_append_right _ (List.mem_singleton.mpr rfl)) heq
    exact absurd (answer.symm.trans ha) (by simp)
  have hupdated' : q.Updated := by
    obtain ⟨t, ht, u, hu⟩ := hupdated
    cases List.mem_append.mp ht with
    | inl hbefore => exact ⟨t, hbefore, u, hu⟩
    | inr hnow =>
      rw [List.mem_singleton.mp hnow, answer] at hu
      exact absurd hu (by simp)
  cases h (fun t ht => hsaves t (List.mem_append_left _ ht)) hupdated' with
  | inr hstands =>
    obtain ⟨n, hn, hstands⟩ := hstands
    exact .inr ⟨n, hsnapshot.trans hn, hkept n hstands⟩
  | inl hdue =>
    refine .inl ?_
    cases hdue with
    | untold t ht u hu =>
      refine .untold t ?_ u hu
      rw [hfinished, htold, List.drop_append_of_le_length htold_le]
      exact List.mem_append_left _ ht
    | asked hasked =>
      obtain ⟨hlt, hget⟩ := List.getElem?_eq_some_iff.mp hc
      rw [List.drop_eq_getElem_cons hlt, hget, List.mem_cons] at hasked
      refine .asked ?_
      rw [hcalls, hfinished, List.length_append, List.length_singleton]
      exact hasked.resolve_left (Ne.symm hother)

/-- A call of a watch is over. If it has failed the file is as it has been found, and if it is a save the file holds
what stands. -/
theorem inStep_finish (h : Serial project s q) (hstep : q.InStep kept)
    (hwatch : ∀ c ∈ q.calls, ∃ w : WatchCall, w.onStore = c) (i : Nat) (found : Disk) (trouble : Option ProjectFault)
    (hkeep : (q.finish i found trouble).file = q.file ∨
      (q.finish i found trouble).file = found.text? q.store.project.cacheFile → ∀ n, kept n → kept' n)
    (hsave : ∀ t n, (q.finish i found trouble).finished.getLast? = some t → t.call = .save →
      (q.finish i found trouble).file = some n.index.write → kept' n) : (q.finish i found trouble).InStep kept' := by
  cases finish_cases h i found trouble with
  | inl hnone =>
    have hkept := hkeep (.inl (by rw [hnone.2]))
    rw [hnone.2]
    exact hstep.mono hkept
  | inr hover =>
    obtain ⟨c, done, store, hc, _, _, _, houtcome, hfinish⟩ := hover
    obtain ⟨w, rfl⟩ := hwatch c (List.mem_of_getElem? hc)
    obtain ⟨hturn, _, hproject, _⟩ :=
      outcomeOf_eq q ⟨q.finished.length, w.onStore, q.store.snapshot⟩ found trouble h.project
    rw [houtcome] at hturn hproject
    have hcall : done.call = w.onStore := congrArg Turn.call hturn
    have hfile : (q.finish i found trouble).file = store.disk.text? q.store.project.cacheFile := by
      rw [hfinish, file, h.project]
      exact congrArg (fun p : Project => store.disk.text? p.cacheFile) hproject
    rw [hfile] at hkeep hsave
    rw [hfinish] at hsave ⊢
    cases ended_outcomeOf q w _ found trouble houtcome with
    | updated u answer =>
      refine fun _ _ => .inl (.untold done ?_ u answer)
      rw [List.drop_append_of_le_length h.told_le]
      exact List.mem_append_right _ (List.mem_singleton.mpr rfl)
    | saved call n snapshot disk =>
      exact fun _ _ => .inr ⟨n, snapshot, hsave done n List.getLast?_concat (hcall.trans call) disk⟩
    | failed f answer snapshot disk =>
      exact inStep_failed hstep h.told_le (hcall ▸ hc) answer rfl rfl rfl snapshot (hkeep (.inr (by rw [disk])))

/-- Once nothing is left to do no save is due. -/
theorem kept_of_quiet (h : Serial project s q) (hstep : q.InStep kept) (hquiet : q.Quiet) (hsaves : q.SavesDone)
    (hupdated : q.Updated) : ∃ n, q.store.snapshot = some n ∧ kept n := by
  cases hstep hsaves hupdated with
  | inr hkept => exact hkept
  | inl hdue =>
    cases hdue with
    | untold t ht u answer =>
      rw [List.drop_eq_nil_of_le (told_of_quiet h hquiet)] at ht
      exact absurd ht List.not_mem_nil
    | asked hasked =>
      rw [List.drop_eq_nil_of_le (Nat.le_of_eq (finished_of_quiet h hquiet).symm)] at hasked
      exact absurd hasked List.not_mem_nil

end StoreQueue

namespace WatchedStore
variable {root : Text} {filter : ProjectFilter} {s : Store} {r : WatchedStore} {kept : Snapshot → Prop}

/-- What an update comes to is heard as such, and answered by asking for a save. -/
theorem hear_updated {t : Finished} (h : t.Apt) {c : WatchCall} (hc : c.onStore = t.call) {u : StoreUpdate}
    (answer : t.answer = .ok (.updated u)) (w : Watch) : (w.hear c t.answer).calls = w.calls ++ [.save u] := by
  cases c with
  | update batch => rw [answer]; rfl
  | save done =>
    obtain ⟨changed, cancelled, hcall⟩ := h u answer
    exact absurd (hc.trans hcall) (by simp [WatchCall.onStore])

theorem inStep_act (h : Follows root filter s r) (hstep : r.queue.InStep kept) (w : Watch) :
    (r.act w).queue.InStep kept :=
  StoreQueue.inStep_foldl_issue hstep h.serial.made _

theorem inStep_tick (h : Follows root filter s r) (hstep : r.queue.InStep kept) : r.tick.queue.InStep kept := by
  obtain ⟨hcalls, hfinished, hstore⟩ := StoreQueue.tick_frame r.queue
  cases tick_cases h with
  | inl hown =>
    obtain ⟨htold, htick⟩ := hown
    have hqueue : r.queue.tick.InStep kept :=
      StoreQueue.inStep_moved hstep (hcalls.trans (List.append_nil _).symm) h.serial.made hfinished hstore
        fun t ht _ _ => .inl (htold ▸ ht)
    rw [htick]
    exact inStep_act h.ticked hqueue r.watch
  | inr hheard =>
    obtain ⟨hlt, c, hc, htold, htick⟩ := hheard
    let w := r.watch.hear c r.queue.finished[r.queue.told.length].answer
    obtain ⟨hissued, hfinished', htold', hstore'⟩ :=
      StoreQueue.foldl_issue r.queue.tick (w.calls.map WatchCall.onStore)
    have hgrown : ∀ t ∈ r.queue.finished.drop r.queue.told.length, ∀ u, t.answer = .ok (.updated u) →
        t ∈ r.queue.finished.drop (r.queue.told.length + 1) ∨ .save ∈ w.calls.map WatchCall.onStore := by
      intro t ht u hu
      rw [List.drop_eq_getElem_cons hlt, List.mem_cons] at ht
      refine ht.symm.imp_right fun hnow => ?_
      have hcalls' : w.calls = r.watch.calls ++ [.save u] :=
        hear_updated (h.serial.turns _ hlt).2.2.2 hc (hnow ▸ hu) r.watch
      rw [hcalls', h.calls]
      exact List.mem_singleton.mpr rfl
    have hlength : ((w.calls.map WatchCall.onStore).foldl StoreQueue.issue r.queue.tick).told.length =
        r.queue.told.length + 1 := by
      rw [htold', htold, List.length_append, List.length_singleton]
    rw [htick]
    refine StoreQueue.inStep_moved hstep (hissued.trans (congrArg (· ++ _) hcalls)) h.serial.made
      (hfinished'.trans hfinished) (hstore'.trans hstore) fun t ht u hu => ?_
    exact hlength ▸ hgrown t ht u hu

/-- Only the end of a call changes the store. -/
theorem store_act (r : WatchedStore) (w : Watch) : (r.act w).queue.store = r.queue.store :=
  (StoreQueue.foldl_issue r.queue _).2.2.2

theorem store_tick (r : WatchedStore) : r.tick.queue.store = r.queue.store :=
  (store_act _ _).trans (StoreQueue.tick_frame r.queue).2.2

/-- Nobody but the store changes the file of the store: when a call is over it is as it was. -/
def Undisturbed (r : WatchedStore) (es : List WatchEvent) : Prop :=
  ∀ es₁ i found trouble es₂, es = es₁ ++ .finish i found trouble :: es₂ →
    found.text? (r.run es₁).queue.store.project.cacheFile = (r.run es₁).queue.file

/-- A save has written the document of a snapshot, and unless somebody else has changed the file since it is still
there. -/
def Kept (r : WatchedStore) (es : List WatchEvent) (n : Snapshot) : Prop :=
  ∃ es₁ es₂, es = es₁ ++ es₂ ∧ (∃ t, (r.run es₁).queue.finished.getLast? = some t ∧ t.call = .save) ∧
    (r.run es₁).queue.file = some n.index.write ∧
      ((r.run es₁).Undisturbed es₂ → (r.run es).queue.file = some n.index.write)

theorem Kept.next {es : List WatchEvent} {n : Snapshot} (h : r.Kept es n) (e : WatchEvent)
    (hfile : (r.run es).Undisturbed [e] → (r.run (es ++ [e])).queue.file = (r.run es).queue.file) :
    r.Kept (es ++ [e]) n := by
  obtain ⟨es₁, es₂, rfl, hsave, hwritten, hstill⟩ := h
  refine ⟨es₁, es₂ ++ [e], List.append_assoc _ _ _, hsave, hwritten, fun halone => ?_⟩
  have hnow : (r.run (es₁ ++ es₂)).Undisturbed [e] := by
    intro us i found trouble vs hus
    have hsplit : es₂ ++ [e] = (es₂ ++ us) ++ .finish i found trouble :: vs := by rw [hus, List.append_assoc]
    have hat := halone _ _ _ _ _ hsplit
    rwa [run_append, ← run_append r es₁ es₂] at hat
  refine (hfile hnow).trans (hstill fun us i found trouble vs hus => ?_)
  exact halone us i found trouble (vs ++ [e]) (by rw [hus, List.append_assoc, List.cons_append])

theorem inStep_run (h : Follows root filter s r) (hstep : r.queue.InStep (r.Kept [])) (es : List WatchEvent) :
    (r.run es).queue.InStep (r.Kept es) := by
  induction es using List.reverseRecOn with
  | nil => exact hstep
  | append_singleton es e ih =>
    have hfollows := follows_run h es
    have hnext : ∀ n, r.Kept es n → (r.run (es ++ [e])).queue.store = (r.run es).queue.store → r.Kept (es ++ [e]) n :=
      fun n hn hstore => hn.next e fun _ => by rw [StoreQueue.file, hstore, StoreQueue.file]
    have hrun : r.run (es ++ [e]) = (r.run es).apply e := run_append r es [e]
    rw [hrun] at hnext ⊢
    cases e with
    | change path =>
      obtain hsame | ⟨w, _, hact⟩ := change_cases (r.run es) path
      · rw [hsame] at hnext ⊢
        exact ih.mono fun n hn => hnext n hn rfl
      · rw [hact] at hnext ⊢
        exact (inStep_act hfollows ih w).mono fun n hn => hnext n hn (store_act _ w)
    | trouble reason => exact (inStep_act hfollows ih _).mono fun n hn => hnext n hn (store_act _ _)
    | expire => exact (inStep_act hfollows ih _).mono fun n hn => hnext n hn (store_act _ _)
    | close => exact (inStep_act hfollows ih _).mono fun n hn => hnext n hn (store_act _ _)
    | tick => exact (inStep_tick hfollows ih).mono fun n hn => hnext n hn (store_tick _)
    | finish i found trouble =>
      refine StoreQueue.inStep_finish hfollows.serial ih (fun c hc => ?_) i found trouble ?_ ?_
      · rw [hfollows.purposes, List.mem_map] at hc
        exact hc.imp fun _ => And.right
      · intro hfile n hn
        refine hn.next _ fun halone => ?_
        have hfound := halone [] i found trouble [] rfl
        rw [hrun]
        exact hfile.elim id fun hto => hto.trans hfound
      · intro t n ht hsave hfile
        refine ⟨es ++ [.finish i found trouble], [], (List.append_nil _).symm, ?_⟩
        rw [hrun]
        exact ⟨⟨t, ht, hsave⟩, hfile, fun _ => hfile⟩

theorem inStep_opened (w : Watch) (s : Store) : (opened w s).queue.InStep kept := by
  rintro - ⟨t, ht, _⟩
  exact absurd ht List.not_mem_nil

/-- Whatever events come to a watch, however its updates end and whatever the store is doing meanwhile: its batches
are applied in the order in which they were handed over. The first batch after an event holds the path of that event
if the filter accepts it, unless the watch is closed before. And if no save has failed and any update has succeeded,
then when nothing is left to do a save has written the document of the snapshot that stands, and there it is unless
somebody else has changed the file since. -/
theorem run_inStep (root : Text) (filter : ProjectFilter) (s : Store) (es : List WatchEvent) :
    let start := opened (Watch.opened root filter) s
    let r := start.run es
    (r.queue.calls.filterMap StoreCall.batch? = r.watch.batches ∧ r.queue.finished.map (·.call) <+: r.queue.calls) ∧
    (∀ es₁ path es₂, es = es₁ ++ .change path :: es₂ →
      let before := (start.run es₁).watch
      let key := before.keyOf path
      before.closed = false → filter.accepts key = .ok true →
        (∃ b rest, r.watch.batches = before.batches ++ b :: rest ∧ key ∈ b) ∨
          r.watch.batches = before.batches ∧
            (key ∈ r.watch.pending.paths ∧ r.watch.pending.armed = true ∨ .close ∈ es₂)) ∧
    (r.queue.SavesDone → r.queue.Updated → r.queue.promises.jobs = [] → r.queue.active = [] →
      ∃ n es₁ es₂, r.queue.store.snapshot = some n ∧ es = es₁ ++ es₂ ∧
        (∃ t, (start.run es₁).queue.finished.getLast? = some t ∧ t.call = .save) ∧
        (start.run es₁).queue.file = some n.index.write ∧
        ((start.run es₁).Undisturbed es₂ →
          r.queue.store.disk.read? s.project.cacheFile = .ok (some n.index.write))) := by
  intro start r
  have hstart : Follows root filter s start := follows_opened root filter s
  have h : Follows root filter s r := follows_run hstart es
  refine ⟨⟨?_, ?_⟩, ?_, ?_⟩
  · have hbatches := h.asks.batches
    rwa [h.calls, List.map_nil, List.append_nil] at hbatches
  · rw [List.prefix_iff_getElem?]
    intro i hi
    rw [List.getElem_map]
    exact (h.serial.turns i (by simpa using hi)).2.1
  · rintro es₁ path es₂ rfl before key hopen haccepts
    have hbefore : Follows root filter s (start.run es₁) := follows_run hstart es₁
    have hfate : r.watch.Fate key before.batches es₂ := by
      have hrun : r = ((start.run es₁).apply (.change path)).run es₂ := run_append start es₁ (.change path :: es₂)
      rw [hrun]
      exact fate_run (follows_apply hbefore _) (fate_change hbefore hopen rfl haccepts) es₂
    cases hfate with
    | handed b rest batches mem => exact .inl ⟨b, rest, batches, mem⟩
    | waiting batches mem armed => exact .inr ⟨batches, .inl ⟨mem, armed⟩⟩
    | dropped batches close _ _ => exact .inr ⟨batches, .inr close⟩
  · intro hsaves hupdated hjobs hactive
    obtain ⟨n, hn, es₁, es₂, hes, hsave, hwritten, hstill⟩ :=
      StoreQueue.kept_of_quiet h.serial (inStep_run hstart (inStep_opened _ s) es) ⟨hjobs, hactive⟩ hsaves hupdated
    refine ⟨n, es₁, es₂, hn, hes, hsave, hwritten, fun halone => ?_⟩
    have hfile : r.queue.store.disk.text? s.project.cacheFile = some n.index.write := by
      rw [← h.serial.project]
      exact hstill halone
    rw [Disk.read?, hfile]

/-- A second batch comes while the first is being applied, and fails before the first is saved. -/
example :
    let start := opened (.opened "/p" (.ofRules .standard (.ofLines []))) (.opened ⟨"/p", .standard⟩ ⟨[]⟩)
    let r := start.run [.change "a.ts", .expire, .tick, .change "b.ts", .expire, .finish 0 ⟨[]⟩ none, .tick, .tick,
      .tick, .finish 0 ⟨[]⟩ (some .cancelled), .tick, .tick, .tick, .finish 0 ⟨[]⟩ none, .tick, .tick]
    r.watch.batches = ([["a.ts"], ["b.ts"]] : List (List Text)) ∧
    r.queue.answers.map Except.isOk = [true, false, true] ∧
      r.queue.promises.jobs.isEmpty ∧ r.queue.active.isEmpty ∧ r.queue.file.isSome := by
  decide +kernel

end WatchedStore
end AnnotationIndex
