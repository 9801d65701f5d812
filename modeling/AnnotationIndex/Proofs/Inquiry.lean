import AnnotationIndex.Link.ExportSearch

/-!
What inquiries ask and answer. The requests and names that the inquiry for an exported name asks about are
those of its unit, and its answer is complete exactly if all answers on the way are.
-/
namespace AnnotationIndex
open Text

def Lookup.Within (S : Text → Prop) (l : Lookup) : Prop := ∀ q, l.value = some q → q = external ∨ S q

theorem Lookup.within_nothing (S : Text → Prop) : nothing.Within S := fun _ h => nomatch h

/-- Where a name is passed over, nothing is found. -/
theorem Lookup.within_cut (S : Text → Prop) : (⟨none, false⟩ : Lookup).Within S := fun _ h => nomatch h

theorem Lookup.within_external (S : Text → Prop) : (found external).Within S :=
  fun _ h => .inl (Option.some.inj h).symm

theorem Lookup.within_inside {S : Text → Prop} {l : Lookup} (h : l.Within S) : l.inside.Within S := by
  unfold inside
  split
  · exact fun _ hq => nomatch hq
  · exact h

namespace Inquiry

/- All questions satisfy `P` and `Q`, and the answer is within `S` if all answers on the way are. -/
def Asks (targets : ModuleRequest → Text → List Text) (P : ModuleRequest → Text → Prop)
    (Q : ExportKey → Prop) (S : Text → Prop) : Inquiry → Prop
  | answer l => l.Within S
  | modules r s next => P r s ∧ Asks targets P Q S (next (targets r s))
  | name k next => Q k ∧ ∀ l, l.Within S → Asks targets P Q S (next l)

def Honest : Bool → Inquiry → Prop
  | b, answer l => l.complete = b
  | b, modules _ _ next => ∀ targets, Honest b (next targets)
  | b, name _ next => ∀ l, Honest (b && l.complete) (next l)

section Asks
variable {targets : ModuleRequest → Text → List Text} {P : ModuleRequest → Text → Prop}
  {Q : ExportKey → Prop} {S : Text → Prop}

theorem Asks.andThen {q : Inquiry} {f : Lookup → Inquiry} (hq : q.Asks targets P Q S)
    (hf : ∀ l, l.Within S → (f l).Asks targets P Q S) : (q.andThen f).Asks targets P Q S := by
  induction q with
  | answer l => exact hf l hq
  | modules r s next ih => exact ⟨hq.1, ih _ hq.2⟩
  | name k next ih => exact ⟨hq.1, fun l hl => ih l (hq.2 l hl)⟩

theorem Asks.orElse {q r : Inquiry} (hq : q.Asks targets P Q S) (hr : r.Asks targets P Q S) :
    (q.orElse r).Asks targets P Q S := by
  refine hq.andThen fun l hl => ?_
  split
  · exact hl
  · exact hr.andThen fun l' hl' => hl'

theorem asks_first {α : Type} {ask : α → Inquiry} {as : List α}
    (h : ∀ a ∈ as, (ask a).Asks targets P Q S) : (first ask as).Asks targets P Q S := by
  induction as with
  | nil => exact Lookup.within_nothing S
  | cons a rest ih =>
    exact Asks.orElse (h a (by simp)) (ih fun b hb => h b (List.mem_cons_of_mem a hb))

theorem asks_imported {path : Text} {request : ModuleRequest} {n : Text} (hP : P request path)
    (hQ : ∀ target ∈ targets request path, Q ⟨target, n⟩) :
    (imported path request n).Asks targets P Q S := by
  refine ⟨hP, ?_⟩
  cases h : targets request path with
  | nil => exact Lookup.within_external S
  | cons t ts =>
    refine asks_first fun target ht => ⟨hQ target ?_, fun l hl => hl⟩
    rw [h]
    exact ht

end Asks

section Honest

theorem Honest.andThen {b : Bool} {q : Inquiry} {f : Lookup → Inquiry} (hq : q.Honest b)
    (hf : ∀ l, (f l).Honest l.complete) : (q.andThen f).Honest b := by
  induction q generalizing b with
  | answer l => exact hq ▸ hf l
  | modules r s next ih => exact fun ts => ih ts (hq ts)
  | name k next ih => exact fun l => ih l (hq l)

/-- What was complete before the inquiry counts as well. -/
theorem Honest.after {b : Bool} {q : Inquiry} (c : Bool) (hq : q.Honest b) :
    (q.andThen fun l => answer ⟨l.value, c && l.complete⟩).Honest (c && b) := by
  induction q generalizing b with
  | answer l => exact congrArg (c && ·) hq
  | modules r s next ih => exact fun ts => ih ts (hq ts)
  | name k next ih =>
    intro l
    have h := ih l (hq l)
    rwa [← Bool.and_assoc] at h

theorem Honest.orElse {q r : Inquiry} (hq : q.Honest true) (hr : r.Honest true) :
    (q.orElse r).Honest true := by
  refine hq.andThen fun l => ?_
  split
  · rfl
  · simpa using hr.after l.complete

theorem honest_first {α : Type} {ask : α → Inquiry} {as : List α} (h : ∀ a ∈ as, (ask a).Honest true) :
    (first ask as).Honest true := by
  induction as with
  | nil => rfl
  | cons a rest ih => exact (h a (by simp)).orElse (ih fun b hb => h b (List.mem_cons_of_mem a hb))

theorem honest_imported (path : Text) (request : ModuleRequest) (n : Text) :
    (imported path request n).Honest true := by
  intro ts
  cases ts with
  | nil => rfl
  | cons t ts => exact honest_first fun target _ l => by simp [Honest]

end Honest

section Answers
variable {targets targets' : ModuleRequest → Text → List Text} {P : ModuleRequest → Text → Prop}
  {Q : ExportKey → Prop} {S : Text → Prop} {found found' : ExportKey → Lookup}

/-- The answer depends only on the answers to the questions that are asked. -/
theorem eval_congr {q : Inquiry} (hq : q.Asks targets P Q S) (ht : ∀ r s, P r s → targets r s = targets' r s)
    (hf : ∀ k, Q k → found k = found' k ∧ (found k).Within S) :
    q.eval targets found = q.eval targets' found' := by
  induction q with
  | answer l => rfl
  | modules r s next ih =>
    rw [eval, eval, ← ht r s hq.1]
    exact ih _ hq.2
  | name k next ih =>
    obtain ⟨hk, hl⟩ := hf k hq.1
    rw [eval, eval, ← hk]
    exact ih _ (hq.2 _ hl)

theorem eval_within {q : Inquiry} (hq : q.Asks targets P Q S) (hf : ∀ k, Q k → (found k).Within S) :
    (q.eval targets found).Within S := by
  induction q with
  | answer l => exact hq
  | modules r s next ih => exact ih _ hq.2
  | name k next ih => exact ih _ (hq.2 _ (hf k hq.1))

/- The next three are about answers that may be missing: `some` of an answer, or none. -/

/-- Where answers go on being given, so does the answer of the inquiry. -/
theorem run_mono {g h : ExportKey → Option Lookup} (hgh : ∀ k l, g k = some l → h k = some l) {q : Inquiry}
    {l : Lookup} (hq : q.run (fun r s => some (targets r s)) g = some l) :
    q.run (fun r s => some (targets r s)) h = some l := by
  induction q with
  | answer a => exact hq
  | modules r s next ih => exact ih _ hq
  | name k next ih =>
    simp only [run, Option.bind_eq_bind, Option.bind_eq_some_iff] at hq ⊢
    obtain ⟨a, ha, hl⟩ := hq
    exact ⟨a, hgh k a ha, ih a hl⟩

theorem eval_eq_of_run {g : ExportKey → Option Lookup} {q : Inquiry} (hq : q.Asks targets P Q S)
    (hfg : ∀ k, Q k → ∀ l, g k = some l → found k = l ∧ l.Within S) {l : Lookup}
    (hl : q.run (fun r s => some (targets r s)) g = some l) : q.eval targets found = l := by
  induction q with
  | answer a => exact Option.some.inj hl
  | modules r s next ih => exact ih _ hq.2 hl
  | name k next ih =>
    simp only [run, Option.bind_eq_bind, Option.bind_eq_some_iff] at hl
    obtain ⟨a, ha, hl⟩ := hl
    obtain ⟨hk, hS⟩ := hfg k hq.1 a ha
    rw [eval, hk]
    exact ih a (hq.2 a hS) hl

/-- A complete answer rests on complete answers alone. -/
theorem run_eq_of_complete {g : ExportKey → Option Lookup} {b : Bool} {q : Inquiry} (hq : q.Honest b)
    (hfg : ∀ k, (found k).complete = true → g k = some (found k))
    (hc : (q.eval targets found).complete = true) :
    b = true ∧ q.run (fun r s => some (targets r s)) g = some (q.eval targets found) := by
  induction q generalizing b with
  | answer l => exact ⟨hq ▸ hc, rfl⟩
  | modules r s next ih => exact ih _ (hq _) hc
  | name k next ih =>
    obtain ⟨hb, hr⟩ := ih _ (hq _) hc
    rw [Bool.and_eq_true] at hb
    refine ⟨hb.1, ?_⟩
    simp only [run, Option.bind_eq_bind, hfg k hb.2, Option.bind_some]
    exact hr

end Answers
end Inquiry
end AnnotationIndex
