import AnnotationIndex.Project.Update
import AnnotationIndex.Proofs.Table
import Mathlib.Data.List.Nodup
import Mathlib.Data.List.Perm.Subperm

/-!
The files that see a change, found breadth first. The importers of a changed file are among them, and so are the
importers of each of them that exports again what it imports.
-/
namespace AnnotationIndex.ProjectIndex
open Text
variable {r : ProjectIndex} {seen queue reached : List Text} {p i : Text}

theorem mem_gathered {importers : List Text} : i ∈ importers.foldl
    (fun found i => if found.elem i then found else found ++ [i]) reached ↔ i ∈ reached ∨ i ∈ importers := by
  induction importers generalizing reached with
  | nil => simp
  | cons a rest ih =>
    rw [List.foldl_cons, ih, List.mem_cons]
    split
    · next ha =>
      have ha : a ∈ reached := List.elem_iff.mp ha
      constructor
      · exact fun h => h.imp_right .inr
      · rintro (h | rfl | h)
        · exact .inl h
        · exact .inl ha
        · exact .inr h
    · rw [List.mem_append, List.mem_singleton, or_assoc]

theorem key_of_passesOn (h : r.passesOn i = true) : i ∈ r.files.keys := by
  unfold passesOn at h
  cases hf : Table.get? r.files i with
  | none =>
    rw [hf] at h
    exact absurd h Bool.false_ne_true
  | some f => exact Table.get?_isSome.mp (by rw [hf, Option.isSome_some])

def unseen (r : ProjectIndex) (seen : List Text) : List Text := r.files.keys.filter fun p => !seen.elem p

def onward (r : ProjectIndex) (seen : List Text) (p : Text) : List Text :=
  (r.importersOf p).filter fun i => !seen.elem i && r.passesOn i

theorem mem_onward : i ∈ r.onward seen p ↔ i ∈ r.importersOf p ∧ i ∉ seen ∧ r.passesOn i = true := by
  simp [onward]

/-- What is queued is no longer unseen. -/
theorem length_unseen (seen : List Text) (hk : r.files.keys.Nodup) (hi : (r.importersOf p).Nodup) :
    (r.onward seen p).length + (r.unseen (seen ++ r.onward seen p)).length ≤ (r.unseen seen).length := by
  rw [← List.length_append]
  refine (List.Nodup.subperm ?_ fun x hx => ?_).length_le
  · refine (hi.filter _).append (hk.filter _) fun x hnext hrest => ?_
    obtain ⟨_, hnew⟩ := List.mem_filter.mp hrest
    have hnew : x ∉ seen ++ r.onward seen p := by simpa using hnew
    exact hnew (List.mem_append_right _ hnext)
  · cases List.mem_append.mp hx with
    | inl hx =>
      obtain ⟨_, hnew, hpasses⟩ := mem_onward.mp hx
      exact List.mem_filter.mpr ⟨key_of_passesOn hpasses, by simpa using hnew⟩
    | inr hx =>
      obtain ⟨hkey, hnew⟩ := List.mem_filter.mp hx
      have hnew : x ∉ seen ++ r.onward seen p := by simpa using hnew
      exact List.mem_filter.mpr ⟨hkey, by simpa using fun hs => hnew (List.mem_append_left _ hs)⟩

/-- What holds while files wait: the importers of all others are found, and found files that pass names on have been
queued. -/
structure Searching (r : ProjectIndex) (seen queue reached : List Text) : Prop where
  done : ∀ p ∈ seen, p ∉ queue → ∀ i ∈ r.importersOf p, i ∈ reached
  passed : ∀ i ∈ reached, r.passesOn i = true → i ∈ seen

theorem Searching.step (h : r.Searching seen (p :: queue) reached) :
    r.Searching (seen ++ r.onward seen p) (queue ++ r.onward seen p)
      ((r.importersOf p).foldl (fun found i => if found.elem i then found else found ++ [i]) reached) := by
  refine ⟨fun q hq hwait i hi => mem_gathered.mpr ?_, fun i hi hpasses => ?_⟩
  · rw [List.mem_append, not_or] at hwait
    have hq : q ∈ seen := (List.mem_append.mp hq).resolve_right hwait.2
    by_cases hqp : q = p
    · exact .inr (hqp ▸ hi)
    · exact .inl (h.done q hq (by simp [hqp, hwait.1]) i hi)
  · rw [List.mem_append, mem_onward]
    cases mem_gathered.mp hi with
    | inl hi => exact .inl (h.passed i hi hpasses)
    | inr hi =>
      by_cases hs : i ∈ seen
      · exact .inl hs
      · exact .inr ⟨hi, hs, hpasses⟩

/-- With enough fuel no file waits in the end. -/
theorem Searching.finish (hk : r.files.keys.Nodup) (hi : ∀ p, (r.importersOf p).Nodup) {left : Nat}
    (h : r.Searching seen queue reached) (hleft : queue.length + (r.unseen seen).length ≤ left) :
    ∃ seen', seen ⊆ seen' ∧ r.Searching seen' [] (r.reachFrom left seen queue reached) := by
  induction left generalizing seen queue reached with
  | zero =>
    have hq : queue = [] := List.eq_nil_of_length_eq_zero (by omega)
    exact ⟨seen, fun _ hs => hs, hq ▸ h⟩
  | succ left ih =>
    cases queue with
    | nil => exact ⟨seen, fun _ hs => hs, h⟩
    | cons p queue =>
      have hlength := length_unseen seen hk (hi p)
      have hleft : (queue ++ r.onward seen p).length + (r.unseen (seen ++ r.onward seen p)).length ≤ left := by
        rw [List.length_append]
        rw [List.length_cons] at hleft
        omega
      obtain ⟨seen', hsub, hfinal⟩ := ih h.step hleft
      exact ⟨seen', fun s hs => hsub (List.mem_append_left _ hs), hfinal⟩

/-- The files that see a change are closed under importers: those of a changed file, and those of a file that passes
names on. -/
theorem importersOf_subset_reach (hk : r.files.keys.Nodup) (hi : ∀ p, (r.importersOf p).Nodup) {changed : List Text}
    (hp : p ∈ changed ∨ p ∈ r.reach changed ∧ r.passesOn p = true) : r.importersOf p ⊆ r.reach changed := by
  have hfirst : r.Searching changed changed [] := ⟨fun p hp hn => absurd hp hn, fun i hi => absurd hi List.not_mem_nil⟩
  have hfuel : changed.length + (r.unseen changed).length ≤ r.files.length + changed.length := by
    have hle : (r.unseen changed).length ≤ r.files.length :=
      Nat.le_trans (List.length_filter_le _ _) (by simp [Table.keys])
    omega
  obtain ⟨seen, hsub, hfinal⟩ := hfirst.finish hk hi hfuel
  have hseen : p ∈ seen := by
    cases hp with
    | inl hp => exact hsub hp
    | inr hp => exact hfinal.passed p hp.1 hp.2
  exact fun i hi => hfinal.done p hseen List.not_mem_nil i hi

end AnnotationIndex.ProjectIndex
