import AnnotationIndex.Outline.Registry
import AnnotationIndex.Proofs.Table
import Mathlib.Data.List.Induction
import Mathlib.Data.List.Nodup
import Mathlib.Tactic.Tauto

/-!
The lives of extractor instances. An instance is made by the lookup that first needs it and is disposed of at most
once. One whose name is registered anew while it lives is given up and stays undisposed; all others are disposed of
by the next disposal, and of these there is at most one for each name.
-/
namespace AnnotationIndex
open Text

inductive RegistryStep where
  | register (id : Text) (extensions : List Text)
  | file (path : Text)
  | extension (extension : Text)
  | disposeAll

namespace RegistryStep

def asked? : RegistryStep → Option Text
  | register _ _ => none
  | file path => some (Path.extension path)
  | extension e => some e
  | disposeAll => none

def Registers (s : RegistryStep) (id : Text) : Prop := ∃ extensions, s = register id extensions

def claims? (extension : Text) : RegistryStep → Option Text
  | register id extensions => if (extensions.map lower).elem (lower extension) then some id else none
  | _ => none

def claimant (steps : List RegistryStep) (extension : Text) : Option Text := steps.reverse.findSome? (claims? extension)

end RegistryStep

def Alive (log : List RegistryEvent) (i : ExtractorInstance) : Prop := .made i ∈ log ∧ .disposed i ∉ log

namespace ExtractorRegistry

def step (r : ExtractorRegistry) : RegistryStep → Option ExtractorInstance × List RegistryEvent × ExtractorRegistry
  | .register id extensions => (none, [], r.register id extensions)
  | .file path => r.forFile path
  | .extension e => r.forExtension e
  | .disposeAll => (none, r.disposeAll)

def run (steps : List RegistryStep) : List RegistryEvent × ExtractorRegistry :=
  steps.foldl (fun x s => (x.1 ++ (x.2.step s).2.1, (x.2.step s).2.2)) ([], empty)

def Holds (r : ExtractorRegistry) (i : ExtractorInstance) : Prop := Table.get? r.entries i.id = some (some i.number)

def countOf (r : ExtractorRegistry) (id : Text) : Nat := (Table.get? r.counts id).getD 0

def Abandoned (steps : List RegistryStep) (i : ExtractorInstance) : Prop :=
  ∃ before s after, steps = before ++ s :: after ∧ s.Registers i.id ∧ Alive (run before).1 i

variable {r r' : ExtractorRegistry} {steps : List RegistryStep} {s : RegistryStep} {i j : ExtractorInstance}
  {log es : List RegistryEvent}

theorem run_concat (steps : List RegistryStep) (s : RegistryStep) :
    run (steps ++ [s]) = ((run steps).1 ++ ((run steps).2.step s).2.1, ((run steps).2.step s).2.2) := by
  rw [run, List.foldl_concat]
  rfl

section Entries
variable {α : Type} {k k' : Text} {v : α} {l : List (Text × α)}

theorem get?_put : Table.get? (put k v l) k' = if k' = k then some v else Table.get? l k' := by
  induction l with
  | nil => exact Table.get?_cons (k, v) []
  | cons e rest ih =>
    rw [put, Table.get?_cons e]
    split
    next he =>
      rw [Table.get?_cons, eq_of_beq he]
      by_cases h : k' = k <;> simp [h]
    next he =>
      have hne : e.1 ≠ k := fun h => he (beq_iff_eq.mpr h)
      rw [Table.get?_cons, ih]
      by_cases h : k' = k
      · simp [h, hne.symm]
      · simp [h]

theorem mem_keys_put : k' ∈ Table.keys (put k v l) ↔ k' = k ∨ k' ∈ Table.keys l := by
  rw [← Table.get?_isSome, get?_put, ← Table.get?_isSome]
  split <;> simp [*]

theorem nodup_put (h : (Table.keys l).Nodup) : (Table.keys (put k v l)).Nodup := by
  induction l with
  | nil => simp [put, Table.keys]
  | cons e rest ih =>
    obtain ⟨hnot, hrest⟩ := List.nodup_cons.mp h
    rw [put]
    split
    next he =>
      obtain rfl := eq_of_beq he
      exact List.nodup_cons.mpr ⟨hnot, hrest⟩
    next he =>
      refine List.nodup_cons.mpr ⟨fun hm => ?_, ih hrest⟩
      cases mem_keys_put.mp hm with
      | inl hk => exact he (beq_iff_eq.mpr hk)
      | inr hm => exact hnot hm

end Entries

section Step

def withInstance (r : ExtractorRegistry) (i : ExtractorInstance) : ExtractorRegistry :=
  { r with entries := put i.id (some i.number) r.entries, counts := put i.id i.number r.counts }

inductive Effect (r : ExtractorRegistry) : RegistryStep → List RegistryEvent → ExtractorRegistry → Prop
  | register (id : Text) (extensions : List Text) : Effect r (.register id extensions) [] (r.register id extensions)
  | find {s : RegistryStep} {e : Text} (asked : s.asked? = some e) : Effect r s [] r
  | make {s : RegistryStep} {e : Text} {i : ExtractorInstance} (asked : s.asked? = some e)
      (next : i.number = r.countOf i.id + 1) (entry : Table.get? r.entries i.id = some none) :
      Effect r s [.made i] (r.withInstance i)
  | disposeAll : Effect r .disposeAll r.disposeAll.1 r.disposeAll.2

inductive Found (r : ExtractorRegistry) (extension : Text) :
    Option ExtractorInstance × List RegistryEvent × ExtractorRegistry → Prop
  | unclaimed (claim : Table.get? r.claims (lower extension) = none) : Found r extension (none, [], r)
  | nameless (claim : Table.get? r.claims (lower extension) = some []) : Found r extension (none, [], r)
  | unregistered {id : Text} (claim : Table.get? r.claims (lower extension) = some id)
      (entry : Table.get? r.entries id = none) : Found r extension (none, [], r)
  | held {i : ExtractorInstance} (claim : Table.get? r.claims (lower extension) = some i.id) (named : i.id ≠ [])
      (held : r.Holds i) : Found r extension (some i, [], r)
  | made {i : ExtractorInstance} (claim : Table.get? r.claims (lower extension) = some i.id) (named : i.id ≠ [])
      (next : i.number = r.countOf i.id + 1) (entry : Table.get? r.entries i.id = some none) :
      Found r extension (some i, [.made i], r.withInstance i)

theorem found_forExtension (r : ExtractorRegistry) (extension : Text) :
    r.Found extension (r.forExtension extension) := by
  unfold forExtension
  cases claim : r.claims.lookup (lower extension) with
  | none => exact .unclaimed claim
  | some id =>
    dsimp only
    by_cases named : id = []
    · rw [named] at claim ⊢
      exact .nameless claim
    · rw [if_neg (by simpa using named)]
      cases entry : r.entries.lookup id with
      | none => exact .unregistered claim entry
      | some live =>
        cases live with
        | none => exact .made (i := ⟨id, r.countOf id + 1⟩) claim named rfl entry
        | some n => exact .held (i := ⟨id, n⟩) claim named entry

theorem step_of_asked {e : Text} (asked : s.asked? = some e) : r.step s = r.forExtension e := by
  cases s with
  | file path => exact congrArg r.forExtension (Option.some.inj asked)
  | extension e' => exact congrArg r.forExtension (Option.some.inj asked)
  | _ => exact absurd asked nofun

theorem effect_lookup {e : Text} (asked : s.asked? = some e) : r.Effect s (r.step s).2.1 (r.step s).2.2 := by
  rw [step_of_asked asked]
  have hfound := r.found_forExtension e
  generalize r.forExtension e = x at hfound
  cases hfound with
  | made _ _ next entry => exact .make asked next entry
  | _ => exact .find asked

theorem effect_step (r : ExtractorRegistry) (s : RegistryStep) : r.Effect s (r.step s).2.1 (r.step s).2.2 := by
  cases s with
  | register id extensions => exact .register id extensions
  | file path => exact effect_lookup rfl
  | extension e => exact effect_lookup rfl
  | disposeAll => exact .disposeAll

/-- A registration claims its extensions, and no others change hands. -/
theorem get?_register {id : Text} {extensions : List Text} {e : Text} :
    Table.get? (r.register id extensions).claims e =
      if (extensions.map lower).elem e then some id else Table.get? r.claims e := by
  rw [register]
  generalize r.claims = claims
  induction extensions generalizing claims with
  | nil => rfl
  | cons e' rest ih =>
    rw [List.foldl_cons, ih, get?_put, List.map_cons, List.elem_cons]
    by_cases he : e = lower e'
    · simp [he]
    · rw [if_neg he, beq_eq_false_iff_ne.mpr he]

theorem holds_register {id : Text} {extensions : List Text} :
    (r.register id extensions).Holds i ↔ i.id ≠ id ∧ r.Holds i := by
  rw [Holds, register, get?_put, Holds]
  split <;> simp [*]

theorem holds_withInstance : (r.withInstance i).Holds j ↔ j = i ∨ j.id ≠ i.id ∧ r.Holds j := by
  rw [Holds, withInstance, get?_put, Holds]
  split
  next h => cases i; cases j; simp_all [eq_comm]
  next h =>
    have hne : j ≠ i := fun he => h (congrArg (·.id) he)
    simp [h, hne]

theorem countOf_withInstance (id : Text) :
    (r.withInstance i).countOf id = if id = i.id then i.number else r.countOf id := by
  rw [countOf, withInstance, get?_put]
  split <;> rfl

theorem not_holds_disposeAll : ¬ r.disposeAll.2.Holds i := by
  intro h
  have hmem := Table.mem_of_get? h
  simp [disposeAll] at hmem

theorem keys_disposeAll : Table.keys r.disposeAll.2.entries = Table.keys r.entries := by
  simp [disposeAll, Table.keys]

theorem mem_disposeAll (hn : (Table.keys r.entries).Nodup) : .disposed i ∈ r.disposeAll.1 ↔ r.Holds i := by
  simp only [disposeAll, List.mem_filterMap]
  constructor
  · rintro ⟨e, he, hi⟩
    obtain ⟨n, hn', hi⟩ := Option.map_eq_some_iff.mp hi
    obtain rfl := RegistryEvent.disposed.inj hi
    rw [Holds, Table.get?_of_mem hn he, hn']
  · exact fun h => ⟨(i.id, some i.number), Table.mem_of_get? h, rfl⟩

theorem made_not_mem_disposeAll : .made i ∉ r.disposeAll.1 := by
  simp [disposeAll]

/-- A disposal names each instance once. -/
theorem nodup_disposeAll (hn : (Table.keys r.entries).Nodup) : r.disposeAll.1.Nodup := by
  refine List.Pairwise.filterMap _ (fun e e' hne event hevent event' hevent' heq => hne ?_) (List.pairwise_map.mp hn)
  obtain ⟨n, _, rfl⟩ := Option.map_eq_some_iff.mp hevent
  obtain ⟨n', _, rfl⟩ := Option.map_eq_some_iff.mp hevent'
  exact congrArg (·.id) (RegistryEvent.disposed.inj heq)

/-- What a registry keeps to: each name has one entry, and so has the name of each claim; the instances of a name
are numbered as they are made, and none is made twice or disposed of more often than made. What it holds is alive.
-/
structure Sound (log : List RegistryEvent) (r : ExtractorRegistry) : Prop where
  names : (Table.keys r.entries).Nodup
  claimed : ∀ e id, Table.get? r.claims e = some id → id ∈ Table.keys r.entries
  numbered : ∀ i, .made i ∈ log → i.number ≤ r.countOf i.id
  once : ∀ i, log.count (.made i) ≤ 1
  disposed : ∀ i, log.count (.disposed i) ≤ log.count (.made i)
  held : ∀ i, r.Holds i → Alive log i

namespace Sound

theorem empty : Sound [] empty :=
  ⟨List.nodup_nil, nofun, fun _ h => absurd h List.not_mem_nil, fun _ => Nat.zero_le 1, fun _ => Nat.le_refl 0, nofun⟩

variable (h : Sound log r)
include h

theorem register (id : Text) (extensions : List Text) : Sound log (r.register id extensions) where
  names := nodup_put h.names
  claimed e id' he := by
    rw [get?_register] at he
    split at he
    · exact mem_keys_put.mpr (.inl (Option.some.inj he).symm)
    · exact mem_keys_put.mpr (.inr (h.claimed e id' he))
  numbered := h.numbered
  once := h.once
  disposed := h.disposed
  held i hi := h.held i (holds_register.mp hi).2

/-- The next instance of a name is a new one. -/
theorem made_not_mem (next : i.number = r.countOf i.id + 1) : .made i ∉ log := by
  intro hm
  have hle := h.numbered i hm
  omega

theorem disposed_not_mem (hi : .made i ∉ log) : .disposed i ∉ log := by
  rw [← List.count_eq_zero] at hi ⊢
  have hle := h.disposed i
  omega

theorem alive_append_made (next : i.number = r.countOf i.id + 1) :
    Alive (log ++ [.made i]) j ↔ j = i ∨ Alive log j := by
  have hdisposed := h.disposed_not_mem (h.made_not_mem next)
  simp only [Alive, List.mem_append, List.mem_singleton, RegistryEvent.made.injEq, reduceCtorEq, or_false]
  constructor
  · rintro ⟨hm | rfl, hd⟩
    · exact .inr ⟨hm, hd⟩
    · exact .inl rfl
  · rintro (rfl | ⟨hm, hd⟩)
    · exact ⟨.inr rfl, hdisposed⟩
    · exact ⟨.inl hm, hd⟩

theorem withInstance (next : i.number = r.countOf i.id + 1) : Sound (log ++ [.made i]) (r.withInstance i) where
  names := nodup_put h.names
  claimed e id he := mem_keys_put.mpr (.inr (h.claimed e id he))
  numbered j hj := by
    have hj : .made j ∈ log ∨ j = i := by simpa using hj
    rw [countOf_withInstance]
    split
    next hid =>
      rcases hj with hj | rfl
      · have hle := h.numbered j hj
        rw [hid] at hle
        omega
      · exact Nat.le_refl _
    next hid =>
      exact h.numbered j (hj.resolve_right fun he => hid (congrArg (·.id) he))
  once j := by
    rw [List.count_append, List.count_singleton]
    split
    next he =>
      obtain rfl := RegistryEvent.made.inj (eq_of_beq he)
      have hzero := List.count_eq_zero.mpr (h.made_not_mem next)
      omega
    next => exact h.once j
  disposed j := by
    rw [List.count_append, List.count_append, List.count_singleton, if_neg (by simp), Nat.add_zero]
    exact Nat.le_add_right_of_le (h.disposed j)
  held j hj := by
    rw [h.alive_append_made next]
    exact (holds_withInstance.mp hj).imp_right fun hj => h.held j hj.2

theorem alive_disposeAll : Alive (log ++ r.disposeAll.1) i ↔ Alive log i ∧ ¬ r.Holds i := by
  simp only [Alive, List.mem_append, made_not_mem_disposeAll, mem_disposeAll h.names, or_false, not_or, and_assoc]

theorem disposeAll : Sound (log ++ r.disposeAll.1) r.disposeAll.2 where
  names := (keys_disposeAll (r := r)).symm ▸ h.names
  claimed e id he := (keys_disposeAll (r := r)).symm ▸ h.claimed e id he
  numbered i hi := h.numbered i ((List.mem_append.mp hi).resolve_right made_not_mem_disposeAll)
  once i := by
    rw [List.count_append, List.count_eq_zero.mpr made_not_mem_disposeAll]
    exact h.once i
  disposed i := by
    rw [List.count_append, List.count_append, List.count_eq_zero.mpr made_not_mem_disposeAll]
    by_cases hi : r.Holds i
    · obtain ⟨hm, hd⟩ := h.held i hi
      have hone := List.nodup_iff_count_le_one.mp (nodup_disposeAll h.names) (.disposed i)
      have hmade := List.count_pos_iff.mpr hm
      rw [List.count_eq_zero.mpr hd]
      omega
    · rw [List.count_eq_zero.mpr (mt (mem_disposeAll h.names).mp hi)]
      exact h.disposed i
  held i hi := absurd hi not_holds_disposeAll

theorem effect (he : r.Effect s es r') : Sound (log ++ es) r' := by
  cases he with
  | register id extensions => exact (List.append_nil log).symm ▸ h.register id extensions
  | find => rwa [List.append_nil]
  | make _ next => exact h.withInstance next
  | disposeAll => exact h.disposeAll

end Sound

/-- Every step keeps a registry sound. -/
theorem sound_run (steps : List RegistryStep) : Sound (run steps).1 (run steps).2 := by
  induction steps using List.reverseRec with
  | nil => exact Sound.empty
  | append_singleton steps s ih =>
    rw [run_concat]
    exact ih.effect (effect_step _ s)

/-- An instance that is alive and not found any more is one that was so before, or has just been given up. -/
theorem stray_iff (h : Sound log r) (he : r.Effect s es r') :
    Alive (log ++ es) i ∧ ¬ r'.Holds i ↔ Alive log i ∧ ¬ r.Holds i ∨ s.Registers i.id ∧ Alive log i := by
  cases he with
  | register id extensions =>
    have hregisters : (RegistryStep.register id extensions).Registers i.id ↔ i.id = id := by
      simp [RegistryStep.Registers, eq_comm]
    rw [List.append_nil, holds_register, hregisters]
    tauto
  | find asked =>
    have hnone : ¬ s.Registers i.id := by
      rintro ⟨extensions, rfl⟩
      exact absurd asked nofun
    rw [List.append_nil]
    tauto
  | @make _ _ k asked next entry =>
    have hnone : ¬ s.Registers i.id := by
      rintro ⟨extensions, rfl⟩
      exact absurd asked nofun
    -- the new instance was not alive before, and none of its name was held
    have hne : Alive log i → i ≠ k := by
      rintro ⟨hm, _⟩ rfl
      exact h.made_not_mem next hm
    have hfree : r.Holds i → i.id ≠ k.id := by
      intro hi hid
      rw [Holds, hid, entry] at hi
      exact absurd hi nofun
    rw [h.alive_append_made next, holds_withInstance]
    tauto
  | disposeAll =>
    have hnone : ¬ RegistryStep.disposeAll.Registers i.id := nofun
    have hgone : ¬ r.disposeAll.2.Holds i := not_holds_disposeAll
    rw [h.alive_disposeAll]
    tauto

end Step

section Abandoned

theorem abandoned_concat :
    Abandoned (steps ++ [s]) i ↔ Abandoned steps i ∨ s.Registers i.id ∧ Alive (run steps).1 i := by
  constructor
  · rintro ⟨before, s', after, heq, hs', halive⟩
    cases after using List.reverseRec with
    | nil =>
      obtain ⟨rfl, hlast⟩ := List.append_inj' heq rfl
      obtain rfl := List.singleton_inj.mp hlast
      exact .inr ⟨hs', halive⟩
    | append_singleton after t =>
      rw [← List.cons_append, ← List.append_assoc] at heq
      exact .inl ⟨before, s', after, (List.append_inj' heq rfl).1, hs', halive⟩
  · rintro (⟨before, s', after, rfl, hs', halive⟩ | ⟨hs, halive⟩)
    · exact ⟨before, s', after ++ [s], by simp, hs', halive⟩
    · exact ⟨steps, s, [], rfl, hs, halive⟩

/-- The instances given up are those that are alive and not found any more. -/
theorem abandoned_iff : Abandoned steps i ↔ Alive (run steps).1 i ∧ ¬ (run steps).2.Holds i := by
  induction steps using List.reverseRec with
  | nil =>
    constructor
    · rintro ⟨before, s, after, heq, _⟩
      exact absurd heq (by simp)
    · exact fun h => absurd h.1.1 List.not_mem_nil
  | append_singleton steps s ih =>
    rw [run_concat, stray_iff (sound_run steps) (effect_step _ s), abandoned_concat, ih]

theorem abandoned_mono {before : List RegistryStep} (hb : before <+: steps) (h : Abandoned before i) :
    Abandoned steps i := by
  obtain ⟨more, rfl⟩ := hb
  obtain ⟨first, s, after, rfl, hs, halive⟩ := h
  exact ⟨first, s, after ++ more, by simp, hs, halive⟩

/-- All instances are released: at any time there is at most one alive of a name, and the last disposal leaves each
disposed of exactly once. -/
structure Released (steps : List RegistryStep) : Prop where
  single : ∀ before, before <+: steps → ∀ i j, Alive (run before).1 i → Alive (run before).1 j → i.id = j.id → i = j
  disposed : ∀ i, .made i ∈ (run (steps ++ [.disposeAll])).1 →
    (run (steps ++ [.disposeAll])).1.count (.disposed i) = 1

theorem holds_inj (hi : r.Holds i) (hj : r.Holds j) (hid : i.id = j.id) : i = j := by
  have hnumber : some i.number = some j.number := Option.some.inj (hi.symm.trans (hid ▸ hj))
  cases i
  cases j
  simp_all

/-- What is made is released exactly if no instance is given up. -/
theorem released_iff : Released steps ↔ ∀ i, ¬ Abandoned steps i := by
  constructor
  · intro h i ha
    have hlast : Abandoned (steps ++ [.disposeAll]) i := abandoned_concat.mpr (.inl ha)
    obtain ⟨hmade, hdisposed⟩ := (abandoned_iff.mp hlast).1
    have hone := h.disposed i hmade
    rw [List.count_eq_zero.mpr hdisposed] at hone
    exact absurd hone (by decide)
  · intro hnone
    refine ⟨fun before hb i j hi hj hid => ?_, fun i hmade => ?_⟩
    · have held : ∀ k, Alive (run before).1 k → (run before).2.Holds k := fun k hk =>
        by_contra fun hh => hnone k (abandoned_mono hb (abandoned_iff.mpr ⟨hk, hh⟩))
      exact holds_inj (held i hi) (held j hj) hid
    -- an instance that outlives the last disposal is given up, but not by the disposal itself
    · have hsound := sound_run (steps ++ [.disposeAll])
      have hle := Nat.le_trans (hsound.disposed i) (hsound.once i)
      have hpos : 0 < (run (steps ++ [.disposeAll])).1.count (.disposed i) := by
        refine List.count_pos_iff.mpr (by_contra fun hd => ?_)
        have hlast : Abandoned (steps ++ [.disposeAll]) i := by
          refine abandoned_iff.mpr ⟨⟨hmade, hd⟩, ?_⟩
          rw [run_concat]
          exact not_holds_disposeAll
        exact (abandoned_concat.mp hlast).elim (hnone i) fun h => absurd h.1 nofun
      omega

end Abandoned

section Lookup

theorem claims_step (r : ExtractorRegistry) (s : RegistryStep) (e : Text) :
    Table.get? (r.step s).2.2.claims (lower e) = (s.claims? e).or (Table.get? r.claims (lower e)) := by
  have lookup : ∀ e', Table.get? (r.forExtension e').2.2.claims (lower e) = Table.get? r.claims (lower e) := by
    intro e'
    have hfound := r.found_forExtension e'
    generalize r.forExtension e' = x at hfound
    cases hfound <;> rfl
  cases s with
  | register id extensions =>
    refine get?_register.trans ?_
    rw [RegistryStep.claims?]
    split <;> rfl
  | file path => exact lookup _
  | extension e' => exact lookup e'
  | disposeAll => rfl

/-- An extension belongs to the name that claimed it last. -/
theorem claims_run (steps : List RegistryStep) (e : Text) :
    Table.get? (run steps).2.claims (lower e) = RegistryStep.claimant steps e := by
  induction steps using List.reverseRec with
  | nil => rfl
  | append_singleton steps s ih =>
    rw [run_concat, claims_step, ih, RegistryStep.claimant, RegistryStep.claimant, List.reverse_concat,
      List.findSome?_cons]
    cases s.claims? e <;> rfl

/-- What a lookup answers: nothing if the extension was never claimed or the empty name claimed it last, and
otherwise an instance of the name that claimed it last, one that is alive and not given up. One is made only if none
of the name is there, but for those given up. -/
structure Answered (steps : List RegistryStep) (s : RegistryStep) (e : Text) : Prop where
  nothing : ((run steps).2.step s).1 = none ↔
    RegistryStep.claimant steps e = none ∨ RegistryStep.claimant steps e = some []
  named : ∀ i, ((run steps).2.step s).1 = some i → RegistryStep.claimant steps e = some i.id
  alive : ∀ i, ((run steps).2.step s).1 = some i → Alive (run (steps ++ [s])).1 i ∧ ¬ Abandoned steps i
  needed : ∀ i, .made i ∈ ((run steps).2.step s).2.1 →
    ((run steps).2.step s).1 = some i ∧ ∀ j, j.id = i.id → Alive (run steps).1 j → Abandoned steps j

theorem answered (steps : List RegistryStep) {e : Text} (asked : s.asked? = some e) : Answered steps s e := by
  have hsound := sound_run steps
  have hfound := (run steps).2.found_forExtension e
  have hlog := congrArg Prod.fst (run_concat steps s)
  rw [← step_of_asked asked] at hfound
  generalize hx : (run steps).2.step s = x at hfound hlog
  have habandoned : ∀ i, ¬ (run steps).2.Holds i → Alive (run steps).1 i → Abandoned steps i := fun i hi halive =>
    abandoned_iff.mpr ⟨halive, hi⟩
  cases hfound with
  | unclaimed claim =>
    rw [claims_run] at claim
    refine ⟨?_, ?_, ?_, ?_⟩ <;> simp [hx, claim]
  | nameless claim =>
    rw [claims_run] at claim
    refine ⟨?_, ?_, ?_, ?_⟩ <;> simp [hx, claim]
  | unregistered claim entry => exact absurd (hsound.claimed _ _ claim) (Table.get?_eq_none.mp entry)
  | @held i claim named held =>
    rw [claims_run] at claim
    refine ⟨?_, ?_, ?_, ?_⟩
    · simp [hx, claim, named]
    · simp [hx, claim]
    · rw [hx, hlog]
      rintro _ ⟨⟩
      rw [List.append_nil]
      exact ⟨hsound.held i held, fun ha => (abandoned_iff.mp ha).2 held⟩
    · simp [hx]
  | @made i claim named next entry =>
    rw [claims_run] at claim
    refine ⟨?_, ?_, ?_, ?_⟩
    · simp [hx, claim, named]
    · simp [hx, claim]
    · rw [hx, hlog]
      rintro _ ⟨⟩
      refine ⟨(hsound.alive_append_made next).mpr (.inl rfl),
        fun ha => hsound.made_not_mem next (abandoned_iff.mp ha).1.1⟩
    · rw [hx]
      intro j hj
      obtain rfl : j = i := by simpa using hj
      refine ⟨rfl, fun k hk => habandoned k fun hheld => ?_⟩
      rw [Holds, hk, entry] at hheld
      exact absurd hheld nofun

end Lookup

/-- Instances are made when they are first needed, by lookups alone, and at most once each; none is disposed of more
often than made. All are released if and only if no name is registered anew while it has a live instance. -/
theorem lifetimes (steps : List RegistryStep) :
    (∀ s e, s.asked? = some e → Answered steps s e) ∧
      (∀ s i, .made i ∈ ((run steps).2.step s).2.1 → ∃ e, s.asked? = some e) ∧
        (∀ i, (run steps).1.count (.made i) ≤ 1 ∧ (run steps).1.count (.disposed i) ≤ (run steps).1.count (.made i)) ∧
          (Released steps ↔ ∀ i, ¬ Abandoned steps i) := by
  refine ⟨fun s e asked => answered steps asked, fun s i hi => ?_, fun i => ?_, released_iff⟩
  · cases hs : s.asked? with
    | some e => exact ⟨e, rfl⟩
    | none =>
      cases s with
      | register id extensions => exact absurd hi List.not_mem_nil
      | disposeAll => exact absurd hi made_not_mem_disposeAll
      | _ => exact absurd hs nofun
  · exact ⟨(sound_run steps).once i, (sound_run steps).disposed i⟩

/-- An instance whose name is registered anew is never disposed of, and the empty name claims an extension for
nothing. -/
theorem not_released_registeredAnew :
    ¬ Released [.register "go" [".go"], .extension ".go", .register "go" [".go"]] ∧
      RegistryStep.claimant [.register [] [".go"]] ".go" = some [] ∧
        ((run [.register [] [".go"]]).2.step (.extension ".go")).1 = none := by
  refine ⟨fun h => ?_, by decide +kernel, by decide +kernel⟩
  have hmade : .made ⟨"go", 1⟩ ∈ (run ([.register "go" [".go"], .extension ".go", .register "go" [".go"]] ++
      [.disposeAll])).1 := by decide +kernel
  exact absurd (h.disposed _ hmade) (by decide +kernel)

end ExtractorRegistry
end AnnotationIndex
