import AnnotationIndex.Project.Update
import Mathlib.Data.List.Forall2

/-!
Work that comes to a result. Log lines have no part in it: the result is the same whatever has been logged before.
-/
namespace AnnotationIndex
open Text

theorem filterAuxM_ok {ε α : Type} {p : α → Except ε Bool} {keep : α → Bool} {as : List α}
    (h : ∀ a ∈ as, p a = .ok (keep a)) (done : List α) :
    as.filterAuxM p done = .ok ((as.filter keep).reverse ++ done) := by
  induction as generalizing done with
  | nil => rfl
  | cons a rest ih =>
    have hrest := ih (fun b hb => h b (List.mem_cons_of_mem a hb))
    rw [List.filterAuxM, h a List.mem_cons_self]
    cases hk : keep a with
    | false => simpa [hk, bind, Except.bind] using hrest done
    | true => simpa [hk, bind, Except.bind] using hrest (a :: done)

theorem exists_ok_of_filterAuxM {ε α : Type} {p : α → Except ε Bool} {as done bs : List α}
    (h : as.filterAuxM p done = .ok bs) : ∀ a ∈ as, ∃ b, p a = .ok b := by
  induction as generalizing done with
  | nil => exact fun _ ha => absurd ha List.not_mem_nil
  | cons a rest ih =>
    rw [List.filterAuxM] at h
    cases ha : p a with
    | error e => simp [ha, bind, Except.bind] at h
    | ok b =>
      rw [ha] at h
      exact List.forall_mem_cons.mpr ⟨⟨b, ha⟩, ih h⟩

/-- What is kept of a list by a test that may fail. -/
theorem filterM_eq_ok_iff {ε α : Type} {p : α → Except ε Bool} {as bs : List α} :
    as.filterM p = .ok bs ↔ ∃ keep, (∀ a ∈ as, p a = .ok (keep a)) ∧ as.filter keep = bs := by
  have hok : ∀ {keep : α → Bool}, (∀ a ∈ as, p a = .ok (keep a)) → as.filterM p = .ok (as.filter keep) := by
    intro keep h
    rw [List.filterM, filterAuxM_ok h]
    simp [bind, Except.bind, pure, Except.pure]
  constructor
  · intro h
    have hall : ∀ a ∈ as, ∃ b, p a = .ok b := by
      rw [List.filterM] at h
      cases haux : as.filterAuxM p [] with
      | error e => simp [haux, bind, Except.bind] at h
      | ok kept => exact exists_ok_of_filterAuxM haux
    have hkeep : ∀ a ∈ as, p a = .ok ((p a).toOption.getD false) := by
      intro a ha
      obtain ⟨b, hb⟩ := hall a ha
      rw [hb]
      rfl
    exact ⟨_, hkeep, Except.ok.inj ((hok hkeep).symm.trans h)⟩
  · rintro ⟨keep, hkeep, rfl⟩
    exact hok hkeep

theorem exists_forall₂ {α β : Type} {R : α → β → Prop} {as : List α} (h : ∀ a ∈ as, ∃ b, R a b) :
    ∃ bs, List.Forall₂ R as bs := by
  induction as with
  | nil => exact ⟨[], .nil⟩
  | cons a rest ih =>
    obtain ⟨b, hb⟩ := h a List.mem_cons_self
    obtain ⟨bs, hbs⟩ := ih fun a ha => h a (List.mem_cons_of_mem _ ha)
    exact ⟨b :: bs, .cons hb hbs⟩

namespace Work
variable {α β : Type}

def Returns (w : Work α) (a : α) : Prop := ∀ log, ∃ log', w.run.run log = (.ok a, log')

theorem Returns.pure (a : α) : Returns (Pure.pure a) a := fun log => ⟨log, rfl⟩

theorem Returns.bind {w : Work α} {f : α → Work β} {a : α} {b : β} (hw : Returns w a) (hf : Returns (f a) b) :
    Returns (w >>= f) b := by
  intro log
  obtain ⟨log', hlog'⟩ := hw log
  obtain ⟨log'', hlog''⟩ := hf log'
  refine ⟨log'', ?_⟩
  rw [ExceptT.run_bind, StateT.run_bind, hlog']
  exact hlog''

theorem Returns.unique {w : Work α} {a b : α} (ha : Returns w a) (hb : Returns w b) : a = b := by
  obtain ⟨log', hlog'⟩ := ha []
  obtain ⟨log'', hlog''⟩ := hb []
  exact Except.ok.inj (Prod.mk.inj (hlog'.symm.trans hlog'')).1

theorem returns_say (level : LogLevel) (source : String) (message : Text) : Returns (say level source message) () :=
  fun _ => ⟨_, rfl⟩

theorem returns_sayTimed (level : LogLevel) (source : String) (message : Text) :
    Returns (sayTimed level source message) () := fun _ => ⟨_, rfl⟩

theorem returns_goOn : Returns (goOn false) () := Returns.pure ()

theorem returns_check {ε : Type} {wrap : ε → ProjectFault} {r : Except ε α} {a : α} (h : r = .ok a) :
    Returns (check wrap r) a := by
  rw [h]
  exact Returns.pure a

theorem returns_mapM {f : α → Work β} {as : List α} {bs : List β}
    (h : List.Forall₂ (fun a b => Returns (f a) b) as bs) : Returns (as.mapM f) bs := by
  induction h with
  | nil => exact Returns.pure []
  | cons hab _ ih =>
    rw [List.mapM_cons]
    exact hab.bind (ih.bind (Returns.pure _))

theorem returns_filterMapM {f : α → Work (Option β)} {as : List α} {os : List (Option β)}
    (h : List.Forall₂ (fun a o => Returns (f a) o) as os) : Returns (as.filterMapM f) (os.filterMap id) := by
  induction h with
  | nil => exact Returns.pure []
  | @cons a o as os hao _ ih =>
    rw [List.filterMapM_cons]
    refine hao.bind ?_
    cases o with
    | none => exact ih
    | some b => exact ih.bind (Returns.pure _)

section Inversion

def MayReturn (w : Work α) (a : α) : Prop := ∃ log log', w.run.run log = (.ok a, log')

theorem Returns.mayReturn {w : Work α} {a : α} (h : Returns w a) : MayReturn w a := ⟨[], h []⟩

namespace MayReturn

theorem eq_of_pure {a b : α} (h : MayReturn (Pure.pure a : Work α) b) : a = b := by
  obtain ⟨_, _, h⟩ := h
  exact Except.ok.inj (Prod.mk.inj h).1

theorem bind {w : Work α} {f : α → Work β} {b : β} (h : MayReturn (w >>= f) b) :
    ∃ a, MayReturn w a ∧ MayReturn (f a) b := by
  obtain ⟨log, log', h⟩ := h
  rw [ExceptT.run_bind, StateT.run_bind] at h
  cases hw : w.run.run log with
  | mk r middle =>
    rw [hw] at h
    cases r with
    | error e => exact absurd (Prod.mk.inj h).1 nofun
    | ok a => exact ⟨a, ⟨log, middle, hw⟩, middle, log', h⟩

theorem check {ε : Type} {wrap : ε → ProjectFault} {r : Except ε α} {a : α} (h : MayReturn (check wrap r) a) :
    r = .ok a := by
  cases r with
  | ok b => rw [eq_of_pure h]
  | error e =>
    obtain ⟨_, _, h⟩ := h
    exact absurd (Prod.mk.inj h).1 nofun

theorem mapM {f : α → Work β} {as : List α} {bs : List β} (h : MayReturn (as.mapM f) bs) :
    List.Forall₂ (fun a b => MayReturn (f a) b) as bs := by
  induction as generalizing bs with
  | nil => exact eq_of_pure h ▸ .nil
  | cons a as ih =>
    rw [List.mapM_cons] at h
    obtain ⟨b, hb, h⟩ := h.bind
    obtain ⟨bs', hbs', h⟩ := h.bind
    exact eq_of_pure h ▸ .cons hb (ih hbs')

theorem filterMapM {f : α → Work (Option β)} {as : List α} {bs : List β} (h : MayReturn (as.filterMapM f) bs) :
    ∃ os, List.Forall₂ (fun a o => MayReturn (f a) o) as os ∧ bs = os.filterMap id := by
  induction as generalizing bs with
  | nil => exact ⟨[], .nil, (eq_of_pure h).symm⟩
  | cons a as ih =>
    rw [List.filterMapM_cons] at h
    obtain ⟨o, ho, h⟩ := h.bind
    cases o with
    | none =>
      obtain ⟨os, hall, rfl⟩ := ih h
      exact ⟨none :: os, .cons ho hall, rfl⟩
    | some b =>
      obtain ⟨bs', hbs', h⟩ := h.bind
      obtain ⟨os, hall, rfl⟩ := ih hbs'
      exact ⟨some b :: os, .cons ho hall, (eq_of_pure h).symm⟩

end MayReturn
end Inversion
end Work

def FileChange.fresh? : FileChange → Option Text
  | fresh path => some path
  | gone _ => none

def FileChange.gone? : FileChange → Option Text
  | gone path => some path
  | fresh _ => none

def UpdateUnits.ofChanges (r : ProjectIndex) (found : List FileChange) (fresh : List IndexedFile) : UpdateUnits :=
  let reindexed := found.filterMap FileChange.fresh?
  let deleted := found.filterMap FileChange.gone?
  ⟨r, (IndexedFile.restoreAll r).filter (fun f => !(reindexed ++ deleted).elem f.path) ++ fresh, reindexed, deleted⟩

def Updated.ofChanges (r : ProjectIndex) (found : List FileChange) (fresh : List IndexedFile) : Updated :=
  if found.isEmpty then ⟨r, [], [], []⟩
  else
    let u := UpdateUnits.ofChanges r found fresh
    ⟨ProjectIndex.assemble u.units u.affected.elem, u.reindexed, u.deleted,
      sortedSet (u.affected.filter fun path => (u.unit? path).isSome)⟩

theorem Updated.index_ofChanges (r : ProjectIndex) (found : List FileChange) (fresh : List IndexedFile) :
    (ofChanges r found fresh).index = if found.isEmpty then r else
      let u := UpdateUnits.ofChanges r found fresh
      ProjectIndex.assemble u.units u.affected.elem := by
  unfold ofChanges
  split <;> rfl

namespace Project
open Work
variable {p : Project} {disk : Disk} {path : Text} {f : IndexedFile}

theorem returns_sayCounts (r : ProjectIndex) : Returns (sayCounts r) () := by
  unfold sayCounts
  dsimp only
  split
  · exact returns_say _ _ _
  · exact Returns.pure ()

def Indexes (p : Project) (disk : Disk) (path : Text) (f : IndexedFile) : Prop :=
  ∃ text, p.read? disk path = .ok (some text) ∧ IndexedFile.ofText p.rules path text = .ok f

theorem readFile_eq_ok_iff {text : Text} : p.readFile disk path = .ok text ↔ p.read? disk path = .ok (some text) := by
  unfold readFile
  cases p.read? disk path with
  | error e => simp [bind, Except.bind]
  | ok t => cases t <;> simp [bind, Except.bind, pure, Except.pure]

theorem returns_indexFile_of_indexes (h : p.Indexes disk path f) : Returns (p.indexFile disk path) f := by
  obtain ⟨text, hread, hf⟩ := h
  exact (returns_check (readFile_eq_ok_iff.mpr hread)).bind (returns_check hf)

theorem indexes_of_mayReturn (h : MayReturn (p.indexFile disk path) f) : p.Indexes disk path f := by
  obtain ⟨text, htext, h⟩ := h.bind
  exact ⟨text, readFile_eq_ok_iff.mp htext.check, h.check⟩

/-- A build comes to the index of the files that the scan finds. -/
theorem exists_files_of_build {r : ProjectIndex} (h : Returns (p.build disk false) r) :
    ∃ paths fs, scan disk p.root p.settings = .ok paths ∧ List.Forall₂ (p.Indexes disk) paths fs ∧
      r = ProjectIndex.assemble fs fun _ => true := by
  obtain ⟨paths, hpaths, h⟩ := h.mayReturn.bind
  obtain ⟨_, _, h⟩ := h.bind
  obtain ⟨_, _, h⟩ := h.bind
  obtain ⟨fs, hfs, h⟩ := h.bind
  obtain ⟨_, _, h⟩ := h.bind
  obtain ⟨_, _, h⟩ := h.bind
  obtain ⟨_, _, h⟩ := h.bind
  exact ⟨paths, fs, hpaths.check, hfs.mapM.imp fun _ _ => indexes_of_mayReturn, h.eq_of_pure.symm⟩

structure Finds (p : Project) (disk : Disk) (filter : ProjectFilter) (r : ProjectIndex) (paths : List Text)
    (found : List FileChange) (fresh : List IndexedFile) : Prop where
  changes : ∃ changes, List.Forall₂ (fun path c => p.changeOf disk filter r path = .ok c) paths changes ∧
    changes.filterMap id = found
  indexed : List.Forall₂ (p.Indexes disk) (found.filterMap FileChange.fresh?) fresh

/-- What an update does: the filter and the disk tell what has become of each changed path, and each path with another
text is indexed anew. -/
theorem returns_update_iff {r : ProjectIndex} {changed : List Text} {u : Updated} :
    Returns (p.update disk r changed false) u ↔ ∃ filter found fresh, p.filter disk = .ok filter ∧
      p.Finds disk filter r (p.candidates changed) found fresh ∧ u = Updated.ofChanges r found fresh := by
  constructor
  · intro h
    obtain ⟨filter, hfilter, h⟩ := h.mayReturn.bind
    obtain ⟨found, hfound, h⟩ := h.bind
    obtain ⟨changes, hchanges, hfound⟩ := hfound.filterMapM
    have hall : List.Forall₂ (fun path c => p.changeOf disk filter r path = .ok c) (p.candidates changed) changes :=
      hchanges.imp fun path c hc => by
        obtain ⟨_, _, hc⟩ := hc.bind
        exact hc.check
    cases hempty : found.isEmpty with
    | true =>
      dsimp only at h
      rw [if_pos hempty] at h
      refine ⟨filter, found, [], hfilter.check, ⟨⟨changes, hall, hfound.symm⟩, ?_⟩, ?_⟩
      · rw [List.isEmpty_iff.mp hempty]
        exact .nil
      · rw [Updated.ofChanges, if_pos hempty, h.eq_of_pure]
    | false =>
      dsimp only at h
      rw [if_neg (by rw [hempty]; exact Bool.false_ne_true)] at h
      obtain ⟨fresh, hfresh, h⟩ := h.bind
      obtain ⟨_, _, h⟩ := h.bind
      obtain ⟨_, _, h⟩ := h.bind
      have hindexed := hfresh.mapM.imp fun _ _ => indexes_of_mayReturn
      refine ⟨filter, found, fresh, hfilter.check, ⟨⟨changes, hall, hfound.symm⟩, hindexed⟩, ?_⟩
      rw [Updated.ofChanges, if_neg (by rw [hempty]; exact Bool.false_ne_true)]
      exact h.eq_of_pure.symm
  · rintro ⟨filter, found, fresh, hfilter, ⟨⟨changes, hchanges, rfl⟩, hfresh⟩, rfl⟩
    have hfound : List.Forall₂ (fun path c => Returns (do
        goOn false
        check id (p.changeOf disk filter r path)) c) (p.candidates changed) changes :=
      hchanges.imp fun path c hc => returns_goOn.bind (returns_check hc)
    have hindexed : List.Forall₂ (fun path f => Returns (p.indexFile disk path) f)
        ((changes.filterMap id).filterMap FileChange.fresh?) fresh :=
      hfresh.imp fun _ _ => returns_indexFile_of_indexes
    unfold update
    refine (returns_check hfilter).bind ((returns_filterMapM hfound).bind ?_)
    unfold Updated.ofChanges
    dsimp only
    split
    · exact Returns.pure _
    · exact (returns_mapM hindexed).bind ((returns_say _ _ _).bind ((returns_sayCounts _).bind (Returns.pure _)))

end Project
end AnnotationIndex
