import AnnotationIndex.Text.Pattern
import Mathlib.Logic.Relation

/-!
What a pattern can read, apart from the order in which the ways to read it are tried. Whatever a match finds can be
read, and where something can be read that the rest goes on from, a match is found.
-/
namespace AnnotationIndex
open Text

namespace Pattern
variable {a : Pattern} {c c' : Cursor} {s t : Text}

def Cursor.Moves (c : Cursor) (s : Text) (c' : Cursor) : Prop :=
  c.rest = s ++ c'.rest ∧ c'.before = s.reverse ++ c.before

theorem Cursor.moves_nil : c.Moves [] c' ↔ c' = c := by
  cases c
  cases c'
  simp [Moves, eq_comm, and_comm]

theorem Cursor.moves_append {c'' : Cursor} : c.Moves (s ++ t) c'' ↔ ∃ c', c.Moves s c' ∧ c'.Moves t c'' := by
  constructor
  · rintro ⟨hrest, hbefore⟩
    refine ⟨⟨s.reverse ++ c.before, t ++ c''.rest⟩, ⟨?_, rfl⟩, rfl, ?_⟩
    · rw [hrest, List.append_assoc]
    · rw [hbefore, List.reverse_append, List.append_assoc]
  · rintro ⟨c', ⟨hrest, hbefore⟩, hrest', hbefore'⟩
    exact ⟨by rw [hrest, hrest', List.append_assoc], by rw [hbefore', hbefore, List.reverse_append, List.append_assoc]⟩

theorem Cursor.moves_cons {before rest : Text} {u : UInt16} :
    Moves ⟨before, rest⟩ (u :: s) c ↔ ∃ rest', rest = u :: rest' ∧ Moves ⟨u :: before, rest'⟩ s c := by
  simp only [Moves, List.reverse_cons, List.append_assoc, List.cons_append]
  constructor
  · rintro ⟨hrest, hbefore⟩
    exact ⟨_, hrest, rfl, hbefore⟩
  · rintro ⟨rest', rfl, hrest, hbefore⟩
    exact ⟨by rw [hrest], hbefore⟩

def Round (R : Cursor × Marks → Cursor × Marks → Prop) (x y : Cursor × Marks) : Prop :=
  R x y ∧ y.1.rest.length < x.1.rest.length

/-- What a pattern can read: the cursors and marks that it leads from and to. A look ahead keeps to the first way it
finds. -/
def Reads : Pattern → Cursor × Marks → Cursor × Marks → Prop
  | empty, x, y => y = x
  | one p, x, y => y.2 = x.2 ∧ ∃ u, p u = true ∧ x.1.Moves [u] y.1
  | run p, x, y | lazyRun p, x, y => y.2 = x.2 ∧ ∃ s, (∀ u ∈ s, p u = true) ∧ x.1.Moves s y.1
  | seq a b, x, z => ∃ y, a.Reads x y ∧ b.Reads y z
  | alt a b, x, y => a.Reads x y ∨ b.Reads x y
  | star a, x, y => Relation.ReflTransGen (Round a.Reads) x y
  | mark n a, x, y => ∃ m, a.Reads x (y.1, m) ∧ y.2 = (n, x.1.rest.take (x.1.rest.length - y.1.rest.length)) :: m
  | ahead a, x, y => y.1 = x.1 ∧ ∃ c, (a.matchFrom x.1 x.2 fun c m => some (c, m)) = some (c, y.2)
  | notAhead a, x, y => y = x ∧ (a.matchFrom x.1 x.2 fun c m => some (c, m)) = none
  | notAfter p, x, y => y = x ∧ ∀ u ∈ x.1.before.head?, p u = false
  | atStart, x, y => y = x ∧ x.1.before = []
  | atEnd, x, y => y = x ∧ x.1.rest = []
  | wordEdge, x, y => y = x ∧ isEdge x.1 = true

section Loops
variable {p : UInt16 → Bool} {k : Cursor → Found} {r : Cursor × Marks} {before rest : Text}

theorem moves_of_runFrom (h : runFrom p k before rest = some r) :
    ∃ c s, (∀ u ∈ s, p u = true) ∧ Cursor.Moves ⟨before, rest⟩ s c ∧ k c = some r := by
  induction rest generalizing before with
  | nil => exact ⟨_, [], nofun, Cursor.moves_nil.mpr rfl, h⟩
  | cons u rest ih =>
    rw [runFrom] at h
    split at h
    · next hu =>
      rw [Option.orElse_eq_or, Option.or_eq_some_iff] at h
      rcases h with h | ⟨-, h⟩
      · obtain ⟨c, s, hs, hmoves, hk⟩ := ih h
        exact ⟨c, u :: s, List.forall_mem_cons.mpr ⟨hu, hs⟩, Cursor.moves_cons.mpr ⟨rest, rfl, hmoves⟩, hk⟩
      · exact ⟨_, [], nofun, Cursor.moves_nil.mpr rfl, h⟩
    · exact ⟨_, [], nofun, Cursor.moves_nil.mpr rfl, h⟩

theorem moves_of_lazyRunFrom (h : lazyRunFrom p k before rest = some r) :
    ∃ c s, (∀ u ∈ s, p u = true) ∧ Cursor.Moves ⟨before, rest⟩ s c ∧ k c = some r := by
  induction rest generalizing before with
  | nil => exact ⟨_, [], nofun, Cursor.moves_nil.mpr rfl, h⟩
  | cons u rest ih =>
    rw [lazyRunFrom, Option.orElse_eq_or, Option.or_eq_some_iff] at h
    rcases h with h | ⟨-, h⟩
    · exact ⟨_, [], nofun, Cursor.moves_nil.mpr rfl, h⟩
    · split at h
      · next hu =>
        obtain ⟨c, s, hs, hmoves, hk⟩ := ih h
        exact ⟨c, u :: s, List.forall_mem_cons.mpr ⟨hu, hs⟩, Cursor.moves_cons.mpr ⟨rest, rfl, hmoves⟩, hk⟩
      · cases h

theorem isSome_runFrom {c : Cursor} (hs : ∀ u ∈ s, p u = true) (hmoves : Cursor.Moves ⟨before, rest⟩ s c)
    (hk : (k c).isSome = true) : (runFrom p k before rest).isSome = true := by
  induction s generalizing before rest with
  | nil =>
    rw [Cursor.moves_nil.mp hmoves] at hk
    cases rest with
    | nil => exact hk
    | cons u rest =>
      rw [runFrom]
      split
      · rw [Option.orElse_eq_or, Option.isSome_or, hk, Bool.or_true]
      · exact hk
  | cons u s ih =>
    obtain ⟨hu, hs⟩ := List.forall_mem_cons.mp hs
    obtain ⟨rest, rfl, hnext⟩ := Cursor.moves_cons.mp hmoves
    rw [runFrom, if_pos hu, Option.orElse_eq_or, Option.isSome_or, ih hs hnext, Bool.true_or]

theorem isSome_lazyRunFrom {c : Cursor} (hs : ∀ u ∈ s, p u = true) (hmoves : Cursor.Moves ⟨before, rest⟩ s c)
    (hk : (k c).isSome = true) : (lazyRunFrom p k before rest).isSome = true := by
  induction s generalizing before rest with
  | nil =>
    rw [Cursor.moves_nil.mp hmoves] at hk
    cases rest with
    | nil => exact hk
    | cons u rest => rw [lazyRunFrom, Option.orElse_eq_or, Option.isSome_or, hk, Bool.true_or]
  | cons u s ih =>
    obtain ⟨hu, hs⟩ := List.forall_mem_cons.mp hs
    obtain ⟨rest, rfl, hnext⟩ := Cursor.moves_cons.mp hmoves
    rw [lazyRunFrom, Option.orElse_eq_or, Option.isSome_or, if_pos hu, ih hs hnext, Bool.or_true]

variable {body : Cursor → Marks → (Cursor → Marks → Found) → Found} {k : Cursor → Marks → Found} {n : Nat}
  {R : Cursor × Marks → Cursor × Marks → Prop}

theorem rounds_of_starFrom (hbody : ∀ x k, body x.1 x.2 k = some r → ∃ y, R x y ∧ k y.1 y.2 = some r)
    {x : Cursor × Marks} (h : starFrom body k n x.1 x.2 = some r) :
    ∃ y, Relation.ReflTransGen (Round R) x y ∧ k y.1 y.2 = some r := by
  induction n generalizing x with
  | zero => exact ⟨x, .refl, h⟩
  | succ n ih =>
    rw [starFrom, Option.orElse_eq_or, Option.or_eq_some_iff] at h
    rcases h with h | ⟨-, h⟩
    · obtain ⟨y, hxy, hy⟩ := hbody x _ h
      split at hy
      · next hless =>
        obtain ⟨z, hyz, hz⟩ := ih hy
        exact ⟨z, .head ⟨hxy, hless⟩ hyz, hz⟩
      · cases hy
    · exact ⟨x, .refl, h⟩

theorem isSome_starFrom (hbody : ∀ x y k, R x y → (k y.1 y.2).isSome = true → (body x.1 x.2 k).isSome = true)
    {x y : Cursor × Marks} (h : Relation.ReflTransGen (Round R) x y) (hk : (k y.1 y.2).isSome = true)
    (hn : x.1.rest.length ≤ n) : (starFrom body k n x.1 x.2).isSome = true := by
  induction h using Relation.ReflTransGen.head_induction_on generalizing n with
  | refl =>
    cases n with
    | zero => exact hk
    | succ n => rw [starFrom, Option.orElse_eq_or, Option.isSome_or, hk, Bool.or_true]
  | @head x z hxz _ ih =>
    obtain ⟨hR, hless⟩ := hxz
    cases n with
    | zero => omega
    | succ n =>
      have hnext : (starFrom body k n z.1 z.2).isSome = true := ih (by omega)
      have hfirst :=
        hbody x z (fun c' m' => if c'.rest.length < x.1.rest.length then starFrom body k n c' m' else none) hR
        (by rwa [if_pos hless])
      rw [starFrom, Option.orElse_eq_or, Option.isSome_or, hfirst, Bool.true_or]

end Loops

/-- What is matched can be read, up to where the rest goes on. -/
theorem reads_of_matchFrom {x r : Cursor × Marks} {k : Cursor → Marks → Found} (h : a.matchFrom x.1 x.2 k = some r) :
    ∃ y, a.Reads x y ∧ k y.1 y.2 = some r := by
  induction a generalizing x k with
  | empty => exact ⟨x, rfl, h⟩
  | one p =>
    rw [matchFrom] at h
    cases hrest : x.1.rest with
    | nil => simp [hrest] at h
    | cons u rest =>
      rw [hrest] at h
      dsimp only at h
      split at h
      · next hu => exact ⟨(⟨u :: x.1.before, rest⟩, x.2), ⟨rfl, u, hu, hrest, rfl⟩, h⟩
      · cases h
  | run p =>
    obtain ⟨c, s, hs, hmoves, hk⟩ := moves_of_runFrom h
    exact ⟨(c, x.2), ⟨rfl, s, hs, hmoves⟩, hk⟩
  | lazyRun p =>
    obtain ⟨c, s, hs, hmoves, hk⟩ := moves_of_lazyRunFrom h
    exact ⟨(c, x.2), ⟨rfl, s, hs, hmoves⟩, hk⟩
  | seq a b iha ihb =>
    obtain ⟨y, hxy, hy⟩ := iha h
    obtain ⟨z, hyz, hz⟩ := ihb hy
    exact ⟨z, ⟨y, hxy, hyz⟩, hz⟩
  | alt a b iha ihb =>
    rw [matchFrom, Option.orElse_eq_or, Option.or_eq_some_iff] at h
    rcases h with h | ⟨-, h⟩
    · obtain ⟨y, hxy, hy⟩ := iha h
      exact ⟨y, .inl hxy, hy⟩
    · obtain ⟨y, hxy, hy⟩ := ihb h
      exact ⟨y, .inr hxy, hy⟩
  | star a ih => exact rounds_of_starFrom (fun _ _ => ih) h
  | mark n a ih =>
    obtain ⟨y, hxy, hy⟩ := ih h
    exact ⟨(y.1, (n, _) :: y.2), ⟨y.2, hxy, rfl⟩, hy⟩
  | ahead a =>
    rw [matchFrom] at h
    split at h
    · next c m hc => exact ⟨(x.1, m), ⟨rfl, c, hc⟩, h⟩
    · cases h
  | notAhead a =>
    rw [matchFrom] at h
    split at h
    · cases h
    · next hnone => exact ⟨x, ⟨rfl, hnone⟩, h⟩
  | notAfter p =>
    rw [matchFrom] at h
    split at h
    · next hbefore => exact ⟨x, ⟨rfl, by simp [hbefore]⟩, h⟩
    · next u _ hbefore =>
      split at h
      · cases h
      · next hu => exact ⟨x, ⟨rfl, by simpa [hbefore] using hu⟩, h⟩
  | atStart =>
    rw [matchFrom] at h
    split at h
    · next hbefore => exact ⟨x, ⟨rfl, List.isEmpty_iff.mp hbefore⟩, h⟩
    · cases h
  | atEnd =>
    rw [matchFrom] at h
    split at h
    · next hrest => exact ⟨x, ⟨rfl, List.isEmpty_iff.mp hrest⟩, h⟩
    · cases h
  | wordEdge =>
    rw [matchFrom] at h
    split at h
    · next hedge => exact ⟨x, ⟨rfl, hedge⟩, h⟩
    · cases h

/-- Where something can be read that the rest goes on from, a match is found. -/
theorem isSome_matchFrom {x y : Cursor × Marks} {k : Cursor → Marks → Found} (h : a.Reads x y)
    (hk : (k y.1 y.2).isSome = true) : (a.matchFrom x.1 x.2 k).isSome = true := by
  induction a generalizing x y k with
  | empty => exact (show y = x from h) ▸ hk
  | one p =>
    obtain ⟨hm, u, hu, hrest, hbefore⟩ := h
    have hy : y.1 = ⟨u :: x.1.before, y.1.rest⟩ := congrArg (Cursor.mk · y.1.rest) hbefore
    rw [matchFrom, hrest, List.singleton_append]
    dsimp only
    rwa [if_pos hu, ← hy, ← hm]
  | run p =>
    obtain ⟨hm, s, hs, hmoves⟩ := h
    exact isSome_runFrom hs hmoves (hm ▸ hk)
  | lazyRun p =>
    obtain ⟨hm, s, hs, hmoves⟩ := h
    exact isSome_lazyRunFrom hs hmoves (hm ▸ hk)
  | seq a b iha ihb =>
    obtain ⟨z, hxz, hzy⟩ := h
    exact iha hxz (ihb hzy hk)
  | alt a b iha ihb =>
    rw [matchFrom, Option.orElse_eq_or, Option.isSome_or, Bool.or_eq_true]
    exact h.imp (iha · hk) (ihb · hk)
  | star a ih => exact isSome_starFrom (fun _ _ _ => ih) h hk (Nat.le_refl _)
  | mark n a ih =>
    obtain ⟨m, ha, hm⟩ := h
    exact ih ha (by rwa [hm] at hk)
  | ahead a =>
    obtain ⟨hc, c, ha⟩ := h
    rw [matchFrom, ha]
    exact hc ▸ hk
  | notAhead a =>
    obtain ⟨rfl, ha⟩ := h
    rwa [matchFrom, ha]
  | notAfter p =>
    obtain ⟨rfl, hp⟩ := h
    rw [matchFrom]
    cases hbefore : y.1.before with
    | nil => exact hk
    | cons u before =>
      rw [hbefore] at hp
      simpa [hp u rfl] using hk
  | atStart =>
    obtain ⟨rfl, hbefore⟩ := h
    rwa [matchFrom, hbefore, if_pos List.isEmpty_nil]
  | atEnd =>
    obtain ⟨rfl, hrest⟩ := h
    rwa [matchFrom, hrest, if_pos List.isEmpty_nil]
  | wordEdge =>
    obtain ⟨rfl, hedge⟩ := h
    rwa [matchFrom, if_pos hedge]

/-- A pattern matches the start of a text just if it can be read there. -/
theorem starts_iff : a.starts t = true ↔ ∃ y, a.Reads (⟨[], t⟩, []) y := by
  rw [starts, start, matchAt, Option.isSome_map]
  constructor
  · intro h
    obtain ⟨r, hr⟩ := Option.isSome_iff_exists.mp h
    obtain ⟨y, hy, -⟩ := reads_of_matchFrom (x := (⟨[], t⟩, [])) hr
    exact ⟨y, hy⟩
  · rintro ⟨y, hy⟩
    exact isSome_matchFrom (x := (⟨[], t⟩, [])) hy rfl

/-- The marks of a match are those of a way to read it. -/
theorem reads_of_start {m : Match} (h : a.start t = some m) :
    ∃ y, a.Reads (⟨[], t⟩, []) y ∧ m.marks = y.2 := by
  obtain ⟨r, hr, rfl⟩ := Option.map_eq_some_iff.mp h
  obtain ⟨y, hy, heq⟩ := reads_of_matchFrom (x := (⟨[], t⟩, [])) hr
  exact ⟨y, hy, by rw [← Option.some.inj heq]⟩

section Spells
variable {b : Pattern} {P Q : Text → Marks → Prop}

def Spells (a : Pattern) (P : Text → Marks → Prop) : Prop :=
  ∀ x y, a.Reads x y ↔ ∃ s m, P s m ∧ x.1.Moves s y.1 ∧ y.2 = m ++ x.2

theorem Spells.congr (h : a.Spells P) (hPQ : ∀ s m, P s m ↔ Q s m) : a.Spells Q := by
  rwa [← funext₂ fun s m => propext (hPQ s m)]

theorem spells_empty : empty.Spells fun s m => s = [] ∧ m = [] := fun x y => by
  constructor
  · rintro rfl
    exact ⟨[], [], ⟨rfl, rfl⟩, Cursor.moves_nil.mpr rfl, rfl⟩
  · rintro ⟨_, _, ⟨rfl, rfl⟩, hmoves, hm⟩
    exact Prod.ext (Cursor.moves_nil.mp hmoves) hm

theorem spells_one (p : UInt16 → Bool) : (one p).Spells fun s m => (∃ u, p u = true ∧ s = [u]) ∧ m = [] := fun x y => by
  constructor
  · rintro ⟨hm, u, hu, hmoves⟩
    exact ⟨[u], [], ⟨⟨u, hu, rfl⟩, rfl⟩, hmoves, hm⟩
  · rintro ⟨_, _, ⟨⟨u, hu, rfl⟩, rfl⟩, hmoves, hm⟩
    exact ⟨hm, u, hu, hmoves⟩

theorem spells_run (p : UInt16 → Bool) : (run p).Spells fun s m => (∀ u ∈ s, p u = true) ∧ m = [] := fun x y => by
  constructor
  · rintro ⟨hm, s, hs, hmoves⟩
    exact ⟨s, [], ⟨hs, rfl⟩, hmoves, hm⟩
  · rintro ⟨s, _, ⟨hs, rfl⟩, hmoves, hm⟩
    exact ⟨hm, s, hs, hmoves⟩

theorem spells_lazyRun (p : UInt16 → Bool) : (lazyRun p).Spells fun s m => (∀ u ∈ s, p u = true) ∧ m = [] :=
  spells_run p

theorem Spells.seq (ha : a.Spells P) (hb : b.Spells Q) :
    (a ++ b).Spells fun s m => ∃ s' m' t n, P s' m' ∧ Q t n ∧ s = s' ++ t ∧ m = n ++ m' := fun x z => by
  constructor
  · rintro ⟨y, hxy, hyz⟩
    obtain ⟨s, m, hs, hmoves, hy⟩ := (ha x y).mp hxy
    obtain ⟨t, n, ht, hmoves', hz⟩ := (hb y z).mp hyz
    exact ⟨s ++ t, n ++ m, ⟨s, m, t, n, hs, ht, rfl, rfl⟩, Cursor.moves_append.mpr ⟨y.1, hmoves, hmoves'⟩,
      by rw [hz, hy, List.append_assoc]⟩
  · rintro ⟨_, _, ⟨s, m, t, n, hs, ht, rfl, rfl⟩, hmoves, hz⟩
    obtain ⟨c, hmoves, hmoves'⟩ := Cursor.moves_append.mp hmoves
    exact ⟨(c, m ++ x.2), (ha _ _).mpr ⟨s, m, hs, hmoves, rfl⟩,
      (hb _ _).mpr ⟨t, n, ht, hmoves', by rw [hz, List.append_assoc]⟩⟩

theorem Spells.mark (h : a.Spells P) (n : Nat) : (mark n a).Spells fun s m => ∃ m', P s m' ∧ m = (n, s) :: m' :=
  fun x y => by
  have htake {s : Text} (hmoves : x.1.Moves s y.1) : x.1.rest.take (x.1.rest.length - y.1.rest.length) = s := by
    rw [hmoves.1, List.length_append, Nat.add_sub_cancel, List.take_left]
  constructor
  · rintro ⟨_, ha, hy⟩
    obtain ⟨s, m, hs, hmoves, rfl⟩ := (h _ _).mp ha
    exact ⟨s, (n, s) :: m, ⟨m, hs, rfl⟩, hmoves, by rw [hy, htake hmoves]; rfl⟩
  · rintro ⟨s, _, ⟨m, hs, rfl⟩, hmoves, hy⟩
    exact ⟨m ++ x.2, (h _ _).mpr ⟨s, m, hs, hmoves, rfl⟩, by rw [hy, htake hmoves]; rfl⟩

theorem spells_plus (p : UInt16 → Bool) : (plus p).Spells fun s m => (s ≠ [] ∧ ∀ u ∈ s, p u = true) ∧ m = [] := by
  refine ((spells_one p).seq (spells_run p)).congr fun s m => ⟨?_, ?_⟩
  · rintro ⟨_, _, t, _, ⟨⟨u, hu, rfl⟩, rfl⟩, ⟨ht, rfl⟩, rfl, rfl⟩
    exact ⟨⟨List.cons_ne_nil u t, List.forall_mem_cons.mpr ⟨hu, ht⟩⟩, rfl⟩
  · rintro ⟨⟨hne, hs⟩, rfl⟩
    obtain ⟨u, t, rfl⟩ := List.exists_cons_of_ne_nil hne
    obtain ⟨hu, ht⟩ := List.forall_mem_cons.mp hs
    exact ⟨[u], [], t, [], ⟨⟨u, hu, rfl⟩, rfl⟩, ⟨ht, rfl⟩, rfl, rfl⟩

theorem spells_lit (t : Text) : (lit t).Spells fun s m => s = t ∧ m = [] := by
  induction t with
  | nil => exact spells_empty
  | cons u t ih =>
    refine ((spells_one (· == u)).seq ih).congr fun s m => ⟨?_, ?_⟩
    · rintro ⟨_, _, _, _, ⟨⟨v, hv, rfl⟩, rfl⟩, ⟨rfl, rfl⟩, rfl, rfl⟩
      rw [beq_iff_eq.mp hv]
      exact ⟨rfl, rfl⟩
    · rintro ⟨rfl, rfl⟩
      exact ⟨[u], [], t, [], ⟨⟨u, beq_self_eq_true u, rfl⟩, rfl⟩, ⟨rfl, rfl⟩, rfl, rfl⟩

/-- The match of a whole text. -/
theorem Spells.starts_atEnd_iff (h : a.Spells P) : (a ++ atEnd).starts t = true ↔ ∃ m, P t m := by
  rw [starts_iff]
  constructor
  · rintro ⟨_, y, hy, rfl, hend⟩
    obtain ⟨s, m, hs, hmoves, -⟩ := (h _ _).mp hy
    have ht : t = s := hmoves.1.trans (by rw [hend, List.append_nil])
    exact ⟨m, ht ▸ hs⟩
  · rintro ⟨m, ht⟩
    have hmoves : Cursor.Moves ⟨[], t⟩ t ⟨t.reverse ++ [], []⟩ := ⟨(List.append_nil t).symm, rfl⟩
    exact ⟨(_, m ++ []), _, (h _ _).mpr ⟨t, m, ht, hmoves, rfl⟩, rfl, rfl⟩

theorem Spells.marks_of_start_atEnd (h : a.Spells P) {m : Match} (hm : (a ++ atEnd).start t = some m) :
    P t m.marks := by
  obtain ⟨_, ⟨y, hy, rfl, hend⟩, hmarks⟩ := reads_of_start hm
  obtain ⟨s, m', hs, hmoves, hy⟩ := (h _ _).mp hy
  have ht : t = s := hmoves.1.trans (by rw [hend, List.append_nil])
  rw [hmarks, hy, List.append_nil]
  exact ht ▸ hs

/-- What a mark at the end of a pattern records. -/
theorem Spells.mark_of_start (h : b.Spells P) {n : Nat} {m : Match} (hm : (a ++ Pattern.mark n b).start t = some m) :
    ∃ inner, P (m.mark n) inner := by
  obtain ⟨z, ⟨y, -, hyz⟩, hmarks⟩ := reads_of_start hm
  obtain ⟨s, _, ⟨inner, hs, rfl⟩, -, hz⟩ := (h.mark n y z).mp hyz
  have hmark : m.mark n = s := by simp [Match.mark, Match.mark?, hmarks, hz]
  exact ⟨inner, hmark ▸ hs⟩

end Spells

end Pattern
end AnnotationIndex
