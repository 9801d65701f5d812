import AnnotationIndex.Proofs.Annotation
import Mathlib.Data.List.Induction
import Mathlib.Data.List.Nodup

/-!
What becomes of the annotations of a file's blocks. Of the blocks above a declaration the closest wins it. The
others are displaced: each is reported once, and nothing of it is kept. Every annotation of a block that is not
displaced goes to one place, and each list of an association holds exactly the annotations that go there, in the
order of their blocks.
-/
namespace AnnotationIndex
open Text

section Lists
variable {α β : Type}

theorem flatMap_eq_single {as : List α} (hn : as.Nodup) {a : α} (ha : a ∈ as) {f : α → List β}
    (h : ∀ a' ∈ as, a' ≠ a → f a' = []) : as.flatMap f = f a := by
  induction as with
  | nil => exact absurd ha List.not_mem_nil
  | cons b rest ih =>
    obtain ⟨hb, hrest⟩ := List.nodup_cons.mp hn
    rw [List.flatMap_cons]
    by_cases hba : b = a
    · subst hba
      have hnone : rest.flatMap f = [] := List.flatMap_eq_nil_iff.mpr fun a' ha' =>
        h a' (List.mem_cons_of_mem b ha') fun he => hb (he ▸ ha')
      rw [hnone, List.append_nil]
    · rw [h b List.mem_cons_self hba, List.nil_append]
      exact ih hrest ((List.mem_cons.mp ha).resolve_left (Ne.symm hba)) fun a' ha' => h a' (List.mem_cons_of_mem b ha')

end Lists

def BlockTarget.owner? : BlockTarget → Option Nat
  | .file => none
  | .symbol i _ => some i
  | .body i => some i

theorem BlockTarget.lt_of_symbol {ds : List Declaration} {kinds : List LineKind} {span : LineSpan} {i : Nat} {d : Int}
    (h : ofBlock ds kinds span = .symbol i d) : i < ds.length := by
  unfold ofBlock at h
  dsimp only at h
  split at h
  · exact absurd h (by split <;> simp)
  · split at h
    · exact absurd h (by split <;> simp)
    · next hfind =>
      split at h
      · exact absurd h (by split <;> simp)
      · obtain ⟨hlt, _⟩ := List.findIdx?_eq_some_iff_getElem.mp hfind
        rwa [← (BlockTarget.symbol.inj h).1]

namespace Association

def placedBlocks (ds : List Declaration) (kinds : List LineKind) (blocks : List AnnotatedBlock) : List Placed :=
  blocks.map fun b => (b, BlockTarget.ofBlock ds kinds b.lineSpan)

section Winners
variable {placed : List Placed} {i n : Nat} {d : Int}

def Aims (placed : List Placed) (i n : Nat) (distance : Int) : Prop :=
  ∃ b, placed[n]? = some (b, .symbol i distance)

/-- Of the blocks above a declaration the closest, and the first of several as close. -/
def Wins (placed : List Placed) (i n : Nat) : Prop :=
  ∃ d, Aims placed i n d ∧ ∀ m d', Aims placed i m d' → d < d' ∨ d = d' ∧ n ≤ m

def Displaced (placed : List Placed) (n : Nat) : Prop := ∃ i d, Aims placed i n d ∧ ¬ Wins placed i n

theorem aims_iff {b : Placed} (hb : placed[n]? = some b) : Aims placed i n d ↔ b.2 = .symbol i d := by
  obtain ⟨block, target⟩ := b
  simp [Aims, hb]

theorem Aims.unique {i' : Nat} {d' : Int} (h : Aims placed i n d) (h' : Aims placed i' n d') : i = i' ∧ d = d' := by
  obtain ⟨b, hb⟩ := h
  obtain ⟨b', hb'⟩ := h'
  cases hb.symm.trans hb'
  exact ⟨rfl, rfl⟩

theorem Wins.unique {m : Nat} (hn : Wins placed i n) (hm : Wins placed i m) : n = m := by
  obtain ⟨d, haims, hbest⟩ := hn
  obtain ⟨d', haims', hbest'⟩ := hm
  have h := hbest m d' haims'
  have h' := hbest' n d haims
  omega

theorem aims_append {b : Placed} : Aims (placed ++ [b]) i n d ↔
    Aims placed i n d ∨ n = placed.length ∧ b.2 = .symbol i d := by
  rw [Aims, Aims, List.getElem?_append]
  split
  · next hn => simp [Nat.ne_of_lt hn]
  · next hn =>
    obtain rfl | hlt := Nat.eq_or_lt_of_le (Nat.not_lt.mp hn)
    · obtain ⟨b, target⟩ := b
      simp
    · have hrest : [b][n - placed.length]? = none := List.getElem?_eq_none (Nat.le_sub_of_add_le' hlt)
      have hpassed : placed[n]? = none := List.getElem?_eq_none (Nat.le_of_lt hlt)
      simp [hrest, hpassed, Nat.ne_of_gt hlt]

def Best (placed : List Placed) (i : Nat) : Option (Nat × AnnotatedBlock × Int) → Prop
  | none => ∀ n d, ¬ Aims placed i n d
  | some (n, w, d) => placed[n]? = some (w, .symbol i d) ∧ ∀ m d', Aims placed i m d' → d < d' ∨ d = d' ∧ n ≤ m

theorem Best.passed {best : Option (Nat × AnnotatedBlock × Int)} (h : Best placed i best) {b : Placed}
    (hb : ∀ d, b.2 ≠ .symbol i d) : Best (placed ++ [b]) i best := by
  have hsame : ∀ n d, Aims (placed ++ [b]) i n d ↔ Aims placed i n d :=
    fun n d => aims_append.trans (or_iff_left fun hlast => hb d hlast.2)
  cases best with
  | none => exact fun n d haims => h n d ((hsame n d).mp haims)
  | some w =>
    obtain ⟨hw, hbest⟩ := h
    refine ⟨?_, fun m d' haims => hbest m d' ((hsame m d').mp haims)⟩
    rw [List.getElem?_append_left (List.getElem?_eq_some_iff.mp hw).1, hw]

theorem Best.closer {best : Option (Nat × AnnotatedBlock × Int)} (h : Best placed i best) (b : Placed) :
    Best (placed ++ [b]) i (winner?.closer i best (b, placed.length)) := by
  obtain ⟨block, target⟩ := b
  have hlast (distance : Int) :
      (placed ++ [(block, .symbol i distance)])[placed.length]? = some (block, .symbol i distance) :=
    List.getElem?_concat_length
  unfold winner?.closer
  dsimp only
  split
  · next j distance =>
    split
    · next hj => exact h.passed fun d hd => hj (BlockTarget.symbol.inj hd).1
    next hj =>
    obtain rfl : j = i := not_not.mp hj
    split
    · refine ⟨hlast distance, fun m d' haims => ?_⟩
      obtain hm | ⟨rfl, hd⟩ := aims_append.mp haims
      · exact absurd hm (h m d')
      · exact .inr ⟨(BlockTarget.symbol.inj hd).2, Nat.le_refl _⟩
    · next n w d =>
      obtain ⟨hw, hbest⟩ := h
      have hn : n < placed.length := (List.getElem?_eq_some_iff.mp hw).1
      split
      · next hcloser =>
        refine ⟨hlast distance, fun m d' haims => ?_⟩
        obtain hm | ⟨rfl, hd⟩ := aims_append.mp haims
        · have hpassed := hbest m d' hm
          omega
        · exact .inr ⟨(BlockTarget.symbol.inj hd).2, Nat.le_refl _⟩
      · next hcloser =>
        refine ⟨(List.getElem?_append_left hn).trans hw, fun m d' haims => ?_⟩
        obtain hm | ⟨rfl, hd⟩ := aims_append.mp haims
        · exact hbest m d' hm
        · have hd' : distance = d' := (BlockTarget.symbol.inj hd).2
          omega
  · next htarget => exact h.passed (htarget i)

theorem best_winner (placed : List Placed) (i : Nat) : Best placed i (placed.zipIdx.foldl (winner?.closer i) none) := by
  induction placed using List.reverseRecOn with
  | nil => exact fun n d h => by simp [Aims] at h
  | append_singleton placed b ih =>
    rw [List.zipIdx_append, List.foldl_append]
    simpa using ih.closer b

/-- The block that a declaration takes its annotations from is the one that wins it. -/
theorem wins_of_winner? {w : AnnotatedBlock} (h : winner? placed i = some (n, w)) :
    Wins placed i n ∧ ∃ d, placed[n]? = some (w, .symbol i d) := by
  have hbest := best_winner placed i
  obtain ⟨⟨n, w, d⟩, he, rfl, rfl⟩ : ∃ e : Nat × AnnotatedBlock × Int,
      placed.zipIdx.foldl (winner?.closer i) none = some e ∧ e.1 = n ∧ e.2.1 = w := by
    simpa [winner?] using h
  rw [he] at hbest
  exact ⟨⟨d, ⟨w, hbest.1⟩, hbest.2⟩, d, hbest.1⟩

theorem exists_winner (h : Aims placed i n d) : ∃ e, winner? placed i = some e := by
  have hbest := best_winner placed i
  rw [winner?]
  cases hfold : placed.zipIdx.foldl (winner?.closer i) none with
  | none =>
    rw [hfold] at hbest
    exact absurd h (hbest n d)
  | some e => exact ⟨_, rfl⟩

theorem wins_iff : Wins placed i n ↔ (winner? placed i).map (·.1) = some n := by
  constructor
  · rintro ⟨d, haims, hbest⟩
    obtain ⟨⟨m, w⟩, hw⟩ := exists_winner haims
    rw [hw, Option.map_some, (wins_of_winner? hw).1.unique ⟨d, haims, hbest⟩]
  · intro h
    obtain ⟨⟨m, w⟩, hw, rfl⟩ := Option.map_eq_some_iff.mp h
    exact (wins_of_winner? hw).1

/-- A declaration with a block above it is won by exactly one. -/
theorem existsUnique_wins (h : ∃ n d, Aims placed i n d) : ∃! n, Wins placed i n := by
  obtain ⟨n, d, haims⟩ := h
  obtain ⟨⟨m, w⟩, hw⟩ := exists_winner haims
  exact ⟨m, (wins_of_winner? hw).1, fun k hk => hk.unique (wins_of_winner? hw).1⟩

theorem displaced_iff (h : Aims placed i n d) : Displaced placed n ↔ ¬ Wins placed i n := by
  refine ⟨fun ⟨i', d', haims, hlost⟩ => ?_, fun hlost => ⟨i, d, h, hlost⟩⟩
  rwa [(h.unique haims).1]

instance (placed : List Placed) (i n : Nat) : Decidable (Wins placed i n) := decidable_of_iff _ wins_iff.symm

theorem displaced_iff_above : Displaced placed n ↔ ∃ b ∈ placed[n]?, ∃ i ∈ b.2.above?, ¬ Wins placed i n := by
  constructor
  · rintro ⟨i, d, ⟨b, hb⟩, hlost⟩
    exact ⟨_, hb, i, rfl, hlost⟩
  · rintro ⟨⟨b, target⟩, hb, i, habove, hlost⟩
    cases target with
    | symbol j d =>
      obtain rfl := Option.some.inj habove
      exact ⟨j, d, ⟨b, hb⟩, hlost⟩
    | file => exact absurd habove (by simp [BlockTarget.above?])
    | body j => exact absurd habove (by simp [BlockTarget.above?])

instance (placed : List Placed) (n : Nat) : Decidable (Displaced placed n) :=
  decidable_of_iff _ displaced_iff_above.symm

end Winners

section Places

/-- Where an annotation goes: to the file, to a declaration, or to the inline markers alone. -/
inductive Place where
  | file
  | declaration (i : Nat)
  | inlineOnly
  deriving DecidableEq

/-- Where the annotations of each block go, by the number of the block; those of a displaced block go nowhere. -/
abbrev Dealing := Nat → AnnotationRecord → Option Place

def dealt (placed : List Placed) (deal : Dealing) (p : Place) : List AnnotationRecord :=
  placed.zipIdx.flatMap fun b => b.1.1.annotations.filter fun a => deal b.2 a == some p

/-- Every annotation of a block that is not displaced has one place: a declaration takes from the block that wins it
all that is not for files only, a marker inside a declaration is only listed, and the rest is the file's. -/
structure Fair (placed : List Placed) (ds : List Declaration) (deal : Dealing) : Prop where
  nowhere : ∀ n b a, placed[n]? = some b → (deal n a = none ↔ Displaced placed n)
  declaration : ∀ n b a i, placed[n]? = some b →
    (deal n a = some (.declaration i) ↔ i < ds.length ∧ Wins placed i n ∧
      AnnotationRecord.isFileOnly a.nameSpace = false)
  inlineOnly : ∀ n b a, placed[n]? = some b →
    (deal n a = some .inlineOnly ↔ AnnotationRecord.isInline a.nameSpace = true ∧ ∃ i, b.2 = .body i)

/-- The report of a displaced block: it names the block that wins the declaration. -/
def Reports (file : Text) (placed : List Placed) (ds : List Declaration) (n : Nat) (d : Diagnostic) : Prop :=
  ∃ block winner i distance distance' m, placed[n]? = some (block, .symbol i distance) ∧
    placed[m]? = some (winner, .symbol i distance') ∧ Wins placed i m ∧
    d = displaced file block winner ((ds[i]?.map (·.name)).getD "?")

/-- The lists of an association hold the annotations that go there. The markers are those of all blocks but the
displaced ones, which have a report each. -/
structure Dealt (file : Text) (placed : List Placed) (ds : List Declaration) (deal : Dealing) (r : Association) :
    Prop where
  fileRecords : r.fileRecords = dealt placed deal .file
  symbolRecords : r.symbolRecords = (List.range ds.length).map fun i => dealt placed deal (.declaration i)
  inline : r.inline = placed.zipIdx.flatMap fun b =>
    (b.1.1.annotations.filter fun a => AnnotationRecord.isInline a.nameSpace && (deal b.2 a).isSome).map
      fun a => ⟨a, b.1.2.owner?⟩
  reports : List.Forall₂ (Reports file placed ds) ((List.range placed.length).filter (Displaced placed ·)) r.reports

def place? (placed : List Placed) (n : Nat) (target : BlockTarget) (a : AnnotationRecord) : Option Place :=
  match target with
  | .file => some .file
  | .body _ => some (if AnnotationRecord.isInline a.nameSpace then .inlineOnly else .file)
  | .symbol i _ =>
    if (winner? placed i).map (·.1) = some n then
      some (if AnnotationRecord.isFileOnly a.nameSpace then .file else .declaration i)
    else none

def dealing (placed : List Placed) : Dealing := fun n a => placed[n]?.bind fun b => place? placed n b.2 a

section Dealing
variable {placed : List Placed} {n i : Nat} {d : Int} {block : AnnotatedBlock}

theorem dealing_file (hb : placed[n]? = some (block, .file)) (a : AnnotationRecord) :
    dealing placed n a = some .file := by
  simp [dealing, hb, place?]

theorem dealing_body (hb : placed[n]? = some (block, .body i)) (a : AnnotationRecord) :
    dealing placed n a = some (if AnnotationRecord.isInline a.nameSpace then .inlineOnly else .file) := by
  simp [dealing, hb, place?]

theorem dealing_won (hb : placed[n]? = some (block, .symbol i d)) (hw : Wins placed i n) (a : AnnotationRecord) :
    dealing placed n a = some (if AnnotationRecord.isFileOnly a.nameSpace then .file else .declaration i) := by
  simp [dealing, hb, place?, wins_iff.mp hw]

theorem dealing_lost (hb : placed[n]? = some (block, .symbol i d)) (hw : ¬ Wins placed i n) (a : AnnotationRecord) :
    dealing placed n a = none := by
  simp [dealing, hb, place?, mt wins_iff.mpr hw]

theorem fair_dealing {ds : List Declaration} (hds : ∀ i n d, Aims placed i n d → i < ds.length) :
    Fair placed ds (dealing placed) := by
  constructor
  case nowhere =>
    rintro n ⟨block, target⟩ a hb
    cases target with
    | file => simp [dealing_file hb, Displaced, aims_iff hb]
    | body i => simp [dealing_body hb, Displaced, aims_iff hb]
    | symbol i d =>
      rw [displaced_iff ⟨block, hb⟩]
      by_cases hw : Wins placed i n
      · simp [dealing_won hb hw, hw]
      · simp [dealing_lost hb hw, hw]
  case declaration =>
    rintro n ⟨block, target⟩ a j hb
    cases target with
    | file => simp [dealing_file hb, Wins, aims_iff hb]
    | body i =>
      have hlost : ¬ Wins placed j n := by simp [Wins, aims_iff hb]
      rw [dealing_body hb]
      split <;> simp [hlost]
    | symbol i d =>
      have haims : Aims placed i n d := ⟨block, hb⟩
      have hone : Wins placed j n → i = j := fun ⟨d', haims', _⟩ => (haims.unique haims').1
      by_cases hw : Wins placed i n
      · rw [dealing_won hb hw]
        constructor
        · intro h
          split at h
          · simp at h
          · next hown =>
            obtain rfl : i = j := by simpa using h
            exact ⟨hds i n d haims, hw, by simpa using hown⟩
        · rintro ⟨_, hj, hown⟩
          rw [hone hj, hown, if_neg Bool.false_ne_true]
      · rw [dealing_lost hb hw]
        exact ⟨fun h => absurd h (by simp), fun h => absurd (hone h.2.1 ▸ h.2.1) hw⟩
  case inlineOnly =>
    rintro n ⟨block, target⟩ a hb
    cases target with
    | file => simp [dealing_file hb]
    | body i =>
      rw [dealing_body hb]
      split <;> simp_all
    | symbol i d =>
      by_cases hw : Wins placed i n
      · rw [dealing_won hb hw]
        split <;> simp
      · simp [dealing_lost hb hw]

end Dealing

section Shares
variable {file : Text} {placed : List Placed} {ds : List Declaration} {n i : Nat} {d : Int} {block : AnnotatedBlock}
  {deal : Dealing}

theorem share_won (hw : Wins placed i n) : share file ds placed ((block, .symbol i d), n) =
    (block.annotations.filter fun a => AnnotationRecord.isFileOnly a.nameSpace, inlineOf (some i) block.annotations,
      []) := by
  obtain ⟨⟨m, w⟩, hm, rfl⟩ := Option.map_eq_some_iff.mp (wins_iff.mp hw)
  simp [share, hm]

/-- A displaced block gives its report and nothing else. -/
theorem share_lost (file : Text) (ds : List Declaration) (hb : placed[n]? = some (block, .symbol i d))
    (hw : ¬ Wins placed i n) :
    ∃ report, share file ds placed ((block, .symbol i d), n) = ([], [], [report]) ∧
      Reports file placed ds n report := by
  obtain ⟨⟨m, w⟩, hm⟩ := exists_winner ⟨block, hb⟩
  obtain ⟨hwins, d', hplaced⟩ := wins_of_winner? hm
  have hne : m ≠ n := fun he => hw (he ▸ hwins)
  exact ⟨displaced file block w ((ds[i]?.map fun d : Declaration => d.name).getD "?"), by simp [share, hm, hne],
    block, w, i, d, d', m, hb, hplaced, hwins, rfl⟩

theorem records_share {b : Placed × Nat} (hb : placed[b.2]? = some b.1) :
    (share file ds placed b).1 = b.1.1.annotations.filter fun a => dealing placed b.2 a == some .file := by
  obtain ⟨⟨block, target⟩, n⟩ := b
  cases target with
  | file => simp [share, dealing_file hb]
  | body i =>
    simp only [share, dealing_body hb]
    refine List.filter_congr fun a _ => ?_
    split <;> simp_all
  | symbol i d =>
    by_cases hw : Wins placed i n
    · simp only [share_won hw, dealing_won hb hw]
      refine List.filter_congr fun a _ => ?_
      split <;> simp_all
    · obtain ⟨report, hshare, _⟩ := share_lost file ds hb hw
      simp [hshare, dealing_lost hb hw]

theorem inline_share {b : Placed × Nat} (hb : placed[b.2]? = some b.1) : (share file ds placed b).2.1 =
    (b.1.1.annotations.filter fun a => AnnotationRecord.isInline a.nameSpace && (dealing placed b.2 a).isSome).map
      fun a => ⟨a, b.1.2.owner?⟩ := by
  obtain ⟨⟨block, target⟩, n⟩ := b
  cases target with
  | file => simp [share, inlineOf, dealing_file hb, BlockTarget.owner?]
  | body i => simp [share, inlineOf, dealing_body hb, BlockTarget.owner?]
  | symbol i d =>
    by_cases hw : Wins placed i n
    · simp [share_won hw, inlineOf, dealing_won hb hw, BlockTarget.owner?]
    · obtain ⟨report, hshare, _⟩ := share_lost file ds hb hw
      simp [hshare, dealing_lost hb hw]

/-- A block is reported if and only if it is displaced. -/
theorem reports_share {b : Placed × Nat} (hb : placed[b.2]? = some b.1) :
    if Displaced placed b.2 then ∃ report, (share file ds placed b).2.2 = [report] ∧ Reports file placed ds b.2 report
    else (share file ds placed b).2.2 = [] := by
  obtain ⟨⟨block, target⟩, n⟩ := b
  cases target with
  | file => rw [if_neg (by simp [Displaced, aims_iff hb]), share]
  | body i => rw [if_neg (by simp [Displaced, aims_iff hb]), share]
  | symbol i d =>
    have hiff : Displaced placed n ↔ ¬ Wins placed i n := displaced_iff ⟨block, hb⟩
    by_cases hw : Wins placed i n
    · rw [if_neg (fun h => hiff.mp h hw), share_won hw]
    · obtain ⟨report, hshare, hreports⟩ := share_lost file ds hb hw
      rw [if_pos (hiff.mpr hw), hshare]
      exact ⟨report, rfl, hreports⟩

/-- A declaration takes from the block that wins it, and from no other. -/
theorem dealt_declaration (hfair : Fair placed ds deal) (hi : i < ds.length) : dealt placed deal (.declaration i) =
    match winner? placed i with
    | some (_, w) => w.annotations.filter fun a => !AnnotationRecord.isFileOnly a.nameSpace
    | none => [] := by
  have hlost : ∀ b ∈ placed.zipIdx, ¬ Wins placed i b.2 →
      (b.1.1.annotations.filter fun a => deal b.2 a == some (.declaration i)) = [] := by
    intro b hb hw
    refine List.filter_eq_nil_iff.mpr fun a _ ha => hw ?_
    exact ((hfair.declaration b.2 b.1 a i (List.mem_zipIdx_iff_getElem?.mp hb)).mp (eq_of_beq ha)).2.1
  cases hwinner : winner? placed i with
  | none =>
    refine List.flatMap_eq_nil_iff.mpr fun b hb => hlost b hb fun hw => ?_
    simp [wins_iff, hwinner] at hw
  | some e =>
    obtain ⟨n, w⟩ := e
    obtain ⟨hwins, d, hplaced⟩ := wins_of_winner? hwinner
    have hmem : ((w, .symbol i d), n) ∈ placed.zipIdx := List.mem_zipIdx_iff_getElem?.mpr hplaced
    have hnodup : placed.zipIdx.Nodup := by
      refine List.Nodup.of_map Prod.snd ?_
      rw [List.zipIdx_map_snd]
      exact List.nodup_range'
    rw [dealt, flatMap_eq_single hnodup hmem]
    · refine List.filter_congr fun a _ => ?_
      rw [Bool.eq_iff_iff, beq_iff_eq, hfair.declaration n _ a i hplaced, Bool.not_eq_true']
      exact ⟨fun h => h.2.2, fun hown => ⟨hi, hwins, hown⟩⟩
    · rintro ⟨b, m⟩ hb hne
      refine hlost _ hb fun hw => hne ?_
      obtain rfl : m = n := hw.unique hwins
      exact Prod.ext (Option.some.inj ((List.mem_zipIdx_iff_getElem?.mp hb).symm.trans hplaced)) rfl

end Shares

/-- Where the annotations of a file's blocks go. A declaration with blocks above it is won by exactly one of them. -/
theorem dealt_ofBlocks (file : Text) (blocks : List AnnotatedBlock) (ds : List Declaration) (kinds : List LineKind) :
    let placed := placedBlocks ds kinds blocks
    (∀ i, (∃ n d, Aims placed i n d) → ∃! n, Wins placed i n) ∧
      ∃ deal, Fair placed ds deal ∧ Dealt file placed ds deal (ofBlocks file blocks ds kinds) := by
  intro placed
  have hds : ∀ i n d, Aims placed i n d → i < ds.length := by
    rintro i n d ⟨b, hb⟩
    obtain ⟨b', _, he⟩ := List.mem_map.mp (List.mem_of_getElem? hb)
    exact BlockTarget.lt_of_symbol (congrArg Prod.snd he)
  have hfair : Fair placed ds (dealing placed) := fair_dealing hds
  have hplaced : ∀ b ∈ placed.zipIdx, placed[b.2]? = some b.1 := fun b => List.mem_zipIdx_iff_getElem?.mp
  refine ⟨fun i => existsUnique_wins, dealing placed, hfair, ?_⟩
  constructor
  case fileRecords =>
    have hshares :
        (ofBlocks file blocks ds kinds).fileRecords = placed.zipIdx.flatMap fun b => (share file ds placed b).1 :=
      List.flatMap_map _ _ _
    rw [hshares]
    exact List.flatMap_congr fun b hb => records_share (hplaced b hb)
  case symbolRecords =>
    have hindices : List.range ds.length = ds.zipIdx.map Prod.snd := by
      rw [List.zipIdx_map_snd, List.range_eq_range']
    rw [hindices, List.map_map]
    refine List.map_congr_left fun d hd => ?_
    have hd' : d.2 < ds.length := (List.getElem?_eq_some_iff.mp (List.mem_zipIdx_iff_getElem?.mp hd)).1
    exact (dealt_declaration hfair hd').symm
  case inline =>
    have hshares :
        (ofBlocks file blocks ds kinds).inline = placed.zipIdx.flatMap fun b => (share file ds placed b).2.1 :=
      List.flatMap_map _ _ _
    rw [hshares]
    exact List.flatMap_congr fun b hb => inline_share (hplaced b hb)
  case reports =>
    have hshares :
        (ofBlocks file blocks ds kinds).reports = placed.zipIdx.flatMap fun b => (share file ds placed b).2.2 :=
      List.flatMap_map _ _ _
    have hindices : List.range placed.length = placed.zipIdx.map Prod.snd := by
      rw [List.zipIdx_map_snd, List.range_eq_range']
    rw [hshares, hindices, List.filter_map, List.forall₂_map_left_iff]
    refine forall₂_filter_flatMap fun b hb => ?_
    simpa using reports_share (hplaced b hb)

end Places
end Association
end AnnotationIndex
