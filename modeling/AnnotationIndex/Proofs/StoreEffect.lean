import AnnotationIndex.Project.Watch
import Mathlib.Tactic.Common

/-!
What an operation does to its store. It publishes a snapshot with its answer or none, it leaves the project as it
is, and only a save writes: the document of the snapshot that it has seen when it began.
-/
namespace AnnotationIndex
open Text

def StoreAnswer.published? : StoreAnswer → Option Snapshot
  | loaded snapshot => snapshot
  | built snapshot => some snapshot
  | updated u => some u.snapshot
  | saved => none

namespace Store
variable {α β : Type} {s : Store} {published : α → Option Snapshot} {x : StoreWork α}

theorem bind_apply (x : StoreWork α) (f : α → StoreWork β) (s : Store) :
    (x >>= f) s = match x s with
      | (.ok a, after) => f a after
      | (.error e, after) => (.error e, after) := by
  change (match x s with | (r, after) => ExceptT.bindCont f r after) = _
  cases x s with
  | mk r after => cases r <;> rfl

/-- Work that leaves the project and the files as they are, and publishes no more than its answer says. -/
structure Effect (published : α → Option Snapshot) (x : StoreWork α) (s : Store) : Prop where
  project : (x s).2.project = s.project
  disk : (x s).2.disk = s.disk
  snapshot : (x s).2.snapshot = ((x s).1.toOption.bind published).or s.snapshot

abbrev Quiet (x : StoreWork α) (s : Store) : Prop := Effect (fun _ => none) x s

theorem Effect.bind {f : α → StoreWork β} {published : β → Option Snapshot} (hx : Quiet x s)
    (hf : ∀ a after, after.project = s.project → after.disk = s.disk → after.snapshot = s.snapshot →
      Effect published (f a) after) : Effect published (x >>= f) s := by
  obtain ⟨hproject, hdisk, hsnapshot⟩ := hx
  have hbind := bind_apply x f s
  cases h : x s with
  | mk r after =>
    simp only [h] at hproject hdisk hsnapshot hbind
    cases r with
    | error e => exact ⟨by rw [hbind, hproject], by rw [hbind, hdisk], by rw [hbind, hsnapshot]; rfl⟩
    | ok a =>
      have hquiet : after.snapshot = s.snapshot := hsnapshot
      obtain ⟨hproject', hdisk', hsnapshot'⟩ := hf a after hproject hdisk hquiet
      exact ⟨by rw [hbind, hproject', hproject], by rw [hbind, hdisk', hdisk], by rw [hbind, hsnapshot', hquiet]⟩

theorem map_apply (g : α → β) (x : StoreWork α) (s : Store) : (g <$> x) s = ((x s).1.map g, (x s).2) := by
  rw [map_eq_pure_bind, bind_apply]
  cases x s with
  | mk r after => cases r <;> rfl

theorem Effect.map {g : α → β} {published' : β → Option Snapshot} (hx : Effect published x s)
    (hg : ∀ a, published' (g a) = published a) : Effect published' (g <$> x) s := by
  obtain ⟨hproject, hdisk, hsnapshot⟩ := hx
  refine ⟨by rw [map_apply, hproject], by rw [map_apply, hdisk], ?_⟩
  rw [map_apply, hsnapshot]
  cases (x s).1 with
  | error e => rfl
  | ok a => exact congrArg (Option.or · s.snapshot) (hg a).symm

theorem Effect.bind_pure {g : α → β} {published' : β → Option Snapshot} (hx : Effect published x s)
    (hg : ∀ a, published' (g a) = published a) : Effect published' (x >>= fun a => Pure.pure (g a)) s :=
  map_eq_pure_bind g x ▸ hx.map hg

theorem Effect.get {f : Store → StoreWork α} (h : Effect published (f s) s) : Effect published (get >>= f) s :=
  ⟨h.project, h.disk, h.snapshot⟩

theorem Effect.pure {a : α} (h : (published a).or s.snapshot = s.snapshot) : Effect published (Pure.pure a) s :=
  ⟨rfl, rfl, h.symm⟩

theorem Effect.throw (f : ProjectFault) : Effect published (throw f) s := ⟨rfl, rfl, rfl⟩

theorem quiet_work (w : Project → Disk → Work α) (s : Store) : Quiet (work w) s := by
  refine ⟨rfl, rfl, ?_⟩
  cases hr : (work w s).1 <;> rfl

theorem effect_publish (r : ProjectIndex) (s : Store) : Effect some (publish r) s := ⟨rfl, rfl, rfl⟩

theorem effect_build (cancelled : Bool) (s : Store) : Effect some (build cancelled) s :=
  .bind (quiet_work _ s) fun r after _ _ _ => effect_publish r after

theorem effect_load (s : Store) : Effect id load s := by
  unfold load
  refine .get ?_
  split
  · exact .throw _
  · exact .pure rfl
  · split
    · exact (effect_publish _ s).bind_pure fun _ => rfl
    · exact .throw _

theorem effect_keep (n : Snapshot) (s : Store) : Effect some (keep n) s := ⟨rfl, rfl, rfl⟩

/-- An update publishes the index that it answers with, also when nothing has changed. -/
theorem effect_updateFrom (seen : Option Snapshot) (changed : List Text) (cancelled : Bool) (s : Store) :
    Effect (fun u => some u.snapshot) (updateFrom seen changed cancelled) s := by
  cases seen with
  | none => exact (effect_build cancelled s).bind_pure fun _ => rfl
  | some previous =>
    refine .bind (quiet_work _ s) fun u after _ _ _ => ?_
    dsimp only
    split
    · exact (effect_publish _ after).bind_pure fun _ => rfl
    · exact (effect_keep previous after).bind_pure fun _ => rfl

/-- A save publishes nothing. If it succeeds the file holds the document of the snapshot that it has seen, and if it
fails nothing is written. -/
theorem saveFrom_apply (seen : Option Snapshot) (s : Store) :
    (saveFrom seen s).2.project = s.project ∧ (saveFrom seen s).2.snapshot = s.snapshot ∧
      ((∃ f, (saveFrom seen s).1 = .error f) ∧ (saveFrom seen s).2.disk = s.disk ∨
        (saveFrom seen s).1 = .ok () ∧ ∃ n, seen = some n ∧
          (saveFrom seen s).2.disk = s.disk.write s.project.cacheFile n.index.write) := by
  have hget : (get : StoreWork Store) s = (.ok s, s) := rfl
  simp only [saveFrom, bind_apply, hget]
  cases seen with
  | none => exact ⟨rfl, rfl, .inl ⟨⟨_, rfl⟩, rfl⟩⟩
  | some n =>
    dsimp only
    cases s.disk.writable s.project.cacheFile with
    | error f => exact ⟨rfl, rfl, .inl ⟨⟨_, rfl⟩, rfl⟩⟩
    | ok _ => exact ⟨rfl, rfl, .inr ⟨rfl, n, rfl, rfl⟩⟩

end Store

namespace StoreCall
variable {seen : Option Snapshot}

/-- A call that is performed at once sees what stands. -/
theorem perform_apply (c : StoreCall) (s : Store) : c.perform s = c.performFrom s.snapshot s := rfl

/-- Every operation but a save leaves the files as they are. -/
theorem effect_performFrom {c : StoreCall} (h : c ≠ .save) (seen : Option Snapshot) (s : Store) :
    Store.Effect StoreAnswer.published? (c.performFrom seen) s := by
  cases c with
  | load => exact (Store.effect_load s).map fun _ => rfl
  | build cancelled => exact (Store.effect_build cancelled s).map fun _ => rfl
  | update changed cancelled => exact (Store.effect_updateFrom seen changed cancelled s).map fun _ => rfl
  | save => exact absurd rfl h

theorem performFrom_save (seen : Option Snapshot) (s : Store) :
    save.performFrom seen s = ((Store.saveFrom seen s).1.map fun _ => .saved, (Store.saveFrom seen s).2) :=
  Store.map_apply _ _ s

theorem performFrom_update (seen : Option Snapshot) (changed : List Text) (cancelled : Bool) (s : Store) :
    (update changed cancelled).performFrom seen s =
      ((Store.updateFrom seen changed cancelled s).1.map .updated, (Store.updateFrom seen changed cancelled s).2) :=
  Store.map_apply _ _ s

/-- An operation leaves the project as it is. -/
theorem performFrom_project (c : StoreCall) (seen : Option Snapshot) (s : Store) :
    (c.performFrom seen s).2.project = s.project := by
  by_cases h : c = .save
  · rw [h, performFrom_save]
    exact (Store.saveFrom_apply seen s).1
  · exact (effect_performFrom h seen s).project

/-- What an operation publishes stands in the store afterwards, and what stood there before if it publishes nothing. -/
theorem performFrom_snapshot (c : StoreCall) (seen : Option Snapshot) (s : Store) :
    (c.performFrom seen s).2.snapshot =
      ((c.performFrom seen s).1.toOption.bind StoreAnswer.published?).or s.snapshot := by
  by_cases h : c = .save
  · rw [h, performFrom_save]
    dsimp only
    rw [(Store.saveFrom_apply seen s).2.1]
    cases (Store.saveFrom seen s).1 <;> rfl
  · exact (effect_performFrom h seen s).snapshot

/-- Only an update answers as one. -/
theorem eq_update_of_performFrom {c : StoreCall} {s : Store} {u : StoreUpdate}
    (h : (c.performFrom seen s).1 = .ok (.updated u)) : ∃ changed cancelled, c = .update changed cancelled := by
  cases c with
  | update changed cancelled => exact ⟨changed, cancelled, rfl⟩
  | load =>
    have hload : (load.performFrom seen s).1 = (Store.load s).1.map .loaded :=
      congrArg Prod.fst (Store.map_apply StoreAnswer.loaded Store.load s)
    rw [hload] at h
    cases hr : (Store.load s).1 <;> simp [hr, Except.map] at h
  | build cancelled =>
    have hbuild : ((build cancelled).performFrom seen s).1 = (Store.build cancelled s).1.map .built :=
      congrArg Prod.fst (Store.map_apply StoreAnswer.built (Store.build cancelled) s)
    rw [hbuild] at h
    cases hr : (Store.build cancelled s).1 <;> simp [hr, Except.map] at h
  | save =>
    rw [performFrom_save] at h
    cases hr : (Store.saveFrom seen s).1 <;> simp [hr, Except.map] at h

/-- Without a snapshot an update is a build. -/
theorem performFrom_update_none (changed : List Text) (cancelled : Bool) (s : Store) :
    (update changed cancelled).performFrom none s =
      ((Store.build cancelled s).1.map fun n => .updated ⟨n, n.index.files.keys, [], []⟩,
        (Store.build cancelled s).2) := by
  have hupdate : Store.updateFrom none changed cancelled =
      (fun n : Snapshot => (⟨n, n.index.files.keys, [], []⟩ : StoreUpdate)) <$> Store.build cancelled :=
    (map_eq_pure_bind _ _).symm
  rw [performFrom_update, hupdate, Store.map_apply]
  cases (Store.build cancelled s).1 <;> rfl

end StoreCall
end AnnotationIndex
