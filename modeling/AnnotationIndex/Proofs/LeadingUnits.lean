import AnnotationIndex.Proofs.CommentRegions
import AnnotationIndex.Text.Pattern

/-!
What a text begins with that a pattern matches. A pattern leads with the units that its first part takes; blanks
before it are passed over.
-/
namespace AnnotationIndex
open Text

namespace Pattern
variable {f g : UInt16 → Bool} {a b : Pattern}

def Leads (f : UInt16 → Bool) (a : Pattern) : Prop :=
  ∀ c m k, (a.matchFrom c m k).isSome = true → ∃ u rest, c.rest = u :: rest ∧ f u = true

theorem Leads.mono (h : Leads f a) (hfg : ∀ u, f u = true → g u = true) : Leads g a := fun c m k hm => by
  obtain ⟨u, rest, hrest, hu⟩ := h c m k hm
  exact ⟨u, rest, hrest, hfg u hu⟩

theorem leads_one (p : UInt16 → Bool) : Leads p (one p) := fun c _ _ hm => by
  rw [matchFrom] at hm
  cases hrest : c.rest with
  | nil => simp [hrest] at hm
  | cons u rest =>
    rw [hrest] at hm
    by_cases hu : p u = true
    · exact ⟨u, rest, rfl, hu⟩
    · simp [hu] at hm

theorem Leads.seq (h : Leads f a) (b : Pattern) : Leads f (a ++ b) := fun c m _ hm => h c m _ hm

theorem Leads.mark (h : Leads f a) (n : Nat) : Leads f (mark n a) := fun c m _ hm => h c m _ hm

theorem Leads.alt (ha : Leads f a) (hb : Leads f b) : Leads f (a <|> b) := fun c m k hm => by
  have hm' : ((a.matchFrom c m k).orElse fun _ => b.matchFrom c m k).isSome = true := hm
  cases h : a.matchFrom c m k with
  | some r => exact ha c m k (by simp [h])
  | none => exact hb c m k (by simpa [h] using hm')

/-- What may be left out leads as what follows does. -/
theorem Leads.opt_seq (ha : Leads f a) (hb : Leads f b) : Leads f (opt a ++ b) := fun c m k hm => by
  have hm' : ((a.matchFrom c m fun c m => b.matchFrom c m k).orElse fun _ => b.matchFrom c m k).isSome = true := hm
  cases h : (a.matchFrom c m fun c m => b.matchFrom c m k) with
  | some r => exact ha c m (fun c m => b.matchFrom c m k) (by simp [h])
  | none => exact hb c m k (by simpa [h] using hm')

theorem leads_lit (u : UInt16) (t : Text) : Leads (· == u) (lit (u :: t)) := (leads_one _).seq _

theorem leads_word {s : String} {u : UInt16} {t : Text} (h : ofString s = u :: t) (hu : isWordStart u = true) :
    Leads isWordStart (s : Pattern) := by
  have hs : ((s : Pattern)) = lit (u :: t) := congrArg lit h
  rw [hs]
  exact (leads_lit u t).mono fun v hv => by rw [beq_iff_eq.mp hv]; exact hu

theorem Leads.start (h : Leads f a) {t : Text} {m : Match} (hm : a.start t = some m) :
    ∃ u, t.head? = some u ∧ f u = true := by
  have hsome : (a.matchFrom ⟨[], t⟩ [] fun c m => some (c, m)).isSome = true := by
    rw [Pattern.start, matchAt] at hm
    exact Option.isSome_map ▸ Option.isSome_of_mem hm
  obtain ⟨u, rest, hrest, hu⟩ := h _ _ _ hsome
  exact ⟨u, by rw [show t = u :: rest from hrest]; rfl, hu⟩

/-- A run gives back no unit that what follows it cannot begin with. -/
theorem runFrom_leads {p : UInt16 → Bool} {k : Cursor → Found} (hfp : ∀ u, f u = true → p u = false)
    (hk : ∀ c, (k c).isSome = true → ∃ u rest, c.rest = u :: rest ∧ f u = true) (before rest : Text)
    (hm : (runFrom p k before rest).isSome = true) : ∃ u, (rest.dropWhile p).head? = some u ∧ f u = true := by
  induction rest generalizing before with
  | nil =>
    obtain ⟨u, rest, hrest, -⟩ := hk _ hm
    cases hrest
  | cons v rest ih =>
    rw [runFrom] at hm
    by_cases hv : p v = true
    · rw [if_pos hv] at hm
      cases h : runFrom p k (v :: before) rest with
      | some r => simpa [hv] using ih (v :: before) (by simp [h])
      | none =>
        obtain ⟨u, rest', hrest, hu⟩ := hk _ (by simpa [h] using hm)
        cases hrest
        simp [hfp v hu] at hv
    · rw [if_neg hv] at hm
      obtain ⟨u, rest', hrest, hu⟩ := hk _ hm
      cases hrest
      exact ⟨v, by simp [hv], hu⟩

theorem Leads.blanks_start (h : Leads f a) (hblank : ∀ u, f u = true → isBlank u = false) {t : Text} {m : Match}
    (hm : (blanks ++ a).start t = some m) : ∃ u, (trim t).head? = some u ∧ f u = true := by
  rw [head?_trim]
  rw [Pattern.start, matchAt] at hm
  exact runFrom_leads hblank (fun c hc => h c _ _ hc) [] t (Option.isSome_map ▸ Option.isSome_of_mem hm)

end Pattern

end AnnotationIndex
