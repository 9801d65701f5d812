import AnnotationIndex.Proofs.DirectiveLines
import AnnotationIndex.Proofs.LineKinds
import AnnotationIndex.Proofs.RawReads

/-!
Where annotation blocks start and end. A block starts at a directive line and takes in the lines below it that are
directives or are indented deeper than its first line; it ends in front of the first line that is neither. The
blocks of a text are the only list of blocks that have this form, follow each other, hold every directive line once
and cannot be extended.
-/
namespace AnnotationIndex
open Text

namespace CommentLine

def Reads (c : CommentLine) (l : BlockLine) : Prop := ∃ body, c.body = some body ∧ l = BlockLine.ofBody c.line body

theorem Reads.line {c : CommentLine} {l : BlockLine} (h : c.Reads l) : l.line = c.line := by
  obtain ⟨body, -, rfl⟩ := h
  rfl

def IsDirective (c : CommentLine) : Prop := ∃ body, c.body = some body ∧ BlockLine.startsDirective body = true

def Ends (indent : Nat) (c : CommentLine) : Prop :=
  c.kind = .code ∨ c.kind = .blank ∨ c.kind = .comment ∧ ∃ body, c.body = some body ∧
    (trim body = [] ∨ BlockLine.startsDirective body = false ∧ indentWidth body ≤ indent)

structure Listing (n : Nat) (cs : List CommentLine) : Prop where
  numbers : cs.map (·.line) = List.range' n cs.length
  bodies : ∀ c ∈ cs, c.kind = .comment ↔ c.body.isSome

namespace Listing
variable {n : Nat} {c c' : CommentLine} {cs run rest : List CommentLine}

theorem head (h : Listing n (c :: rest)) : c.line = n := by
  have hnumbers := h.numbers
  rw [List.map_cons, List.length_cons, List.range'_succ] at hnumbers
  exact (List.cons.inj hnumbers).1

theorem tail (h : Listing n (c :: rest)) : Listing (n + 1) rest where
  numbers := by
    have hnumbers := h.numbers
    rw [List.map_cons, List.length_cons, List.range'_succ] at hnumbers
    exact (List.cons.inj hnumbers).2
  bodies := fun c hc => h.bodies c (List.mem_cons_of_mem _ hc)

theorem append (h : Listing n (run ++ rest)) : Listing n run ∧ Listing (n + run.length) rest := by
  have hnumbers := h.numbers
  rw [List.map_append, List.length_append, ← List.range'_append_1] at hnumbers
  obtain ⟨hrun, hrest⟩ := List.append_inj hnumbers (by simp)
  exact ⟨⟨hrun, fun c hc => h.bodies c (List.mem_append_left _ hc)⟩,
    ⟨hrest, fun c hc => h.bodies c (List.mem_append_right _ hc)⟩⟩

theorem line_of_getElem? (h : Listing n cs) {i : Nat} (hc : cs[i]? = some c) : c.line = n + i := by
  have hi := (List.getElem?_eq_some_iff.mp hc).1
  have hline : (cs.map (·.line))[i]? = some c.line := by rw [List.getElem?_map, hc]; rfl
  rw [h.numbers, List.getElem?_range' hi] at hline
  simpa using (Option.some.inj hline).symm

theorem getElem?_of_mem (h : Listing n cs) (hc : c ∈ cs) :
    n ≤ c.line ∧ c.line < n + cs.length ∧ cs[c.line - n]? = some c := by
  obtain ⟨i, hi⟩ := List.mem_iff_getElem?.mp hc
  have hlt := (List.getElem?_eq_some_iff.mp hi).1
  rw [h.line_of_getElem? hi]
  exact ⟨by omega, by omega, by simpa using hi⟩

theorem eq_of_line (h : Listing n cs) (hc : c ∈ cs) (hc' : c' ∈ cs) (hline : c.line = c'.line) : c = c' := by
  have hget := (h.getElem?_of_mem hc).2.2
  rw [hline, (h.getElem?_of_mem hc').2.2] at hget
  exact (Option.some.inj hget).symm

end Listing

theorem comment_iff_outsideBlock (s : CommentSyntax) (raw : Text) :
    (outsideBlock s raw).1 = .comment ↔ (outsideBlock s raw).2.1.isSome := by
  by_cases hblank : trim raw = []
  · simp [outsideBlock, hblank]
  · obtain hcode | ⟨body, still, hcomment⟩ := outsideBlock_cases s hblank <;> simp [*]

theorem length_classifyFrom (s : CommentSyntax) (open? : Option BlockDelimiter) (n : Nat) (ls : List Text) :
    (classifyFrom s open? n ls).length = ls.length := by
  simpa using congrArg List.length (lines_classifyFrom s open? n ls)

theorem listing_classifyFrom (s : CommentSyntax) (open? : Option BlockDelimiter) (n : Nat) (ls : List Text) :
    Listing n (classifyFrom s open? n ls) where
  numbers := by rw [lines_classifyFrom, length_classifyFrom]
  bodies := by
    induction ls generalizing open? n with
    | nil => cases open? <;> exact nofun
    | cons raw ls ih =>
      cases open? with
      | some d => exact List.forall_mem_cons.mpr ⟨⟨fun _ => rfl, fun _ => rfl⟩, ih _ _⟩
      | none => exact List.forall_mem_cons.mpr ⟨comment_iff_outsideBlock s raw, ih _ _⟩

end CommentLine

def BlockLine.GoesOn (indent : Nat) (l : BlockLine) : Prop :=
  l.isDirective = true ∨ trim l.body ≠ [] ∧ indent < l.indent

namespace BlockLine
variable {c : CommentLine} {l : BlockLine} {indent : Nat}

theorem directive?_iff : directive? c = some l ↔ c.Reads l ∧ l.isDirective = true := by
  rw [directive?_eq_some]
  constructor
  · rintro ⟨body, hbody, hstart, rfl⟩
    exact ⟨⟨body, hbody, rfl⟩, hstart⟩
  · rintro ⟨⟨body, hbody, rfl⟩, hstart⟩
    exact ⟨body, hbody, hstart, rfl⟩

theorem isSome_directive? : (directive? c).isSome ↔ c.IsDirective := by
  rw [Option.isSome_iff_exists]
  constructor
  · rintro ⟨l, hl⟩
    obtain ⟨body, hbody, hstart, -⟩ := directive?_eq_some.mp hl
    exact ⟨body, hbody, hstart⟩
  · rintro ⟨body, hbody, hstart⟩
    exact ⟨_, directive?_eq_some.mpr ⟨body, hbody, hstart, rfl⟩⟩

theorem trim_ne_nil_of_startsDirective {body : Text} (h : startsDirective body = true) : trim body ≠ [] := by
  intro hempty
  have hstart : trimStart body = [] := List.dropWhile_eq_nil_iff.mpr (trim_eq_nil hempty)
  rw [startsDirective, hstart] at h
  exact absurd h (by decide)

theorem continues?_iff : continues? indent c = some l ↔ c.Reads l ∧ l.GoesOn indent := by
  unfold continues? CommentLine.Reads
  cases c.body with
  | none => simp
  | some body =>
    have hgoes : (ofBody c.line body).GoesOn indent ↔
        (startsDirective body || (!(trim body).isEmpty && indent < indentWidth body)) = true := by
      simp [GoesOn, ofBody]
    dsimp only
    constructor
    · intro h
      split at h
      · next hcond =>
        obtain rfl := Option.some.inj h
        exact ⟨⟨body, rfl, rfl⟩, hgoes.mpr hcond⟩
      · exact absurd h nofun
    · rintro ⟨⟨_, ⟨⟩, rfl⟩, hcond⟩
      exact if_pos (hgoes.mp hcond)

/-- A line ends a block exactly if it does not go on. -/
theorem ends_iff (h : c.kind = .comment ↔ c.body.isSome) : c.Ends indent ↔ continues? indent c = none := by
  unfold CommentLine.Ends continues?
  cases hbody : c.body with
  | none =>
    have hkind : c.kind ≠ .comment := by simpa [hbody] using h
    cases hk : c.kind <;> simp_all
  | some body =>
    have hkind : c.kind = .comment := by simpa [hbody] using h
    have hempty : startsDirective body = true → trim body ≠ [] := trim_ne_nil_of_startsDirective
    by_cases htrim : trim body = [] <;> cases hd : startsDirective body <;> simp_all

end BlockLine

namespace AnnotationBlock
open CommentLine
variable {n : Nat} {c : CommentLine} {cs run rest : List CommentLine} {b : AnnotationBlock} {bs : List AnnotationBlock}
  {first : BlockLine} {others : List BlockLine}

/-- Blocks of lines that follow each other, hold every directive line once and cannot be extended. -/
structure Maximal (cs : List CommentLine) (bs : List AnnotationBlock) : Prop where
  apart : bs.Pairwise fun b b' => b.last.line < b'.first.line
  consecutive : ∀ b ∈ bs, b.lineNumbers = List.range' b.first.line (b.last.line + 1 - b.first.line)
  read : ∀ b ∈ bs, ∀ l ∈ b.lines, ∃ c ∈ cs, c.Reads l
  first : ∀ b ∈ bs, b.first.isDirective = true
  others : ∀ b ∈ bs, ∀ l ∈ b.others, l.GoesOn b.first.indent
  once : ∀ c ∈ cs, c.IsDirective → ∃! b, b ∈ bs ∧ c.line ∈ b.lineNumbers
  ended : ∀ b ∈ bs, ∀ c ∈ cs, c.line = b.last.line + 1 → c.Ends b.first.indent

/-- How lines are cut into blocks: a line that is no directive is passed over, and a block takes in the lines below
its first one up to the first that does not go on. -/
inductive Cut : List CommentLine → List AnnotationBlock → Prop where
  | nil : Cut [] []
  | skip {c : CommentLine} {rest : List CommentLine} {bs : List AnnotationBlock} :
    BlockLine.directive? c = none → Cut rest bs → Cut (c :: rest) bs
  | block {c : CommentLine} {run rest : List CommentLine} {first : BlockLine} {others : List BlockLine}
    {bs : List AnnotationBlock} : BlockLine.directive? c = some first →
    List.Forall₂ (fun c l => BlockLine.continues? first.indent c = some l) run others →
    (∀ c ∈ rest.head?, BlockLine.continues? first.indent c = none) → Cut rest bs →
    Cut (c :: (run ++ rest)) (⟨first, others⟩ :: bs)

theorem exists_run (indent : Nat) (cs : List CommentLine) : ∃ run rest others, cs = run ++ rest ∧
    List.Forall₂ (fun c l => BlockLine.continues? indent c = some l) run others ∧
    ∀ c ∈ rest.head?, BlockLine.continues? indent c = none := by
  induction cs with
  | nil => exact ⟨[], [], [], rfl, .nil, nofun⟩
  | cons c cs ih =>
    cases hc : BlockLine.continues? indent c with
    | none =>
      refine ⟨[], c :: cs, [], rfl, .nil, ?_⟩
      rintro _ ⟨⟩
      exact hc
    | some l =>
      obtain ⟨run, rest, others, rfl, hrun, hend⟩ := ih
      exact ⟨c :: run, rest, l :: others, rfl, .cons hc hrun, hend⟩

theorem exists_cut (cs : List CommentLine) : ∃ bs, Cut cs bs := by
  induction hn : cs.length using Nat.strong_induction_on generalizing cs with
  | _ n ih =>
    cases cs with
    | nil => exact ⟨[], .nil⟩
    | cons c cs =>
      cases hd : BlockLine.directive? c with
      | none =>
        obtain ⟨bs, hbs⟩ := ih cs.length (by simp at hn; omega) cs rfl
        exact ⟨bs, .skip hd hbs⟩
      | some first =>
        obtain ⟨run, rest, others, rfl, hrun, hend⟩ := exists_run first.indent cs
        obtain ⟨bs, hbs⟩ := ih rest.length (by simp at hn; omega) rest rfl
        exact ⟨⟨first, others⟩ :: bs, .block hd hrun hend hbs⟩

/-- An open block is closed behind the lines that go on. -/
theorem scanFrom_run {more : List BlockLine}
    (hrun : List.Forall₂ (fun c l => BlockLine.continues? first.indent c = some l) run more)
    (hend : ∀ c ∈ rest.head?, BlockLine.continues? first.indent c = none) (others : List BlockLine) :
    scanFrom (some (first, others)) (run ++ rest) = ⟨first, others.reverse ++ more⟩ :: scanFrom none rest := by
  induction hrun generalizing others with
  | nil =>
    cases rest with
    | nil => simp [scanFrom, closed]
    | cons c rest =>
      have hc : BlockLine.continues? first.indent c = none := hend c rfl
      simp [scanFrom, hc, BlockLine.directive?_of_not_continues? hc]
  | @cons c l run more hc _ ih => simp [scanFrom, hc, ih (l :: others)]

theorem Cut.scanFrom_eq (h : Cut cs bs) : scanFrom none cs = bs := by
  induction h with
  | nil => rfl
  | skip hc _ ih => simpa [scanFrom, hc] using ih
  | block hc hrun hend _ ih => simp [scanFrom, hc, scanFrom_run hrun hend, ih]

theorem scanFrom_eq_iff : scanFrom none cs = bs ↔ Cut cs bs := by
  refine ⟨fun h => ?_, Cut.scanFrom_eq⟩
  obtain ⟨bs', hbs'⟩ := exists_cut cs
  rw [← h, hbs'.scanFrom_eq]
  exact hbs'

theorem getLast_lineNumbers (b : AnnotationBlock) :
    b.lineNumbers.getLast (List.cons_ne_nil _ _) = b.last.line := by
  simp only [lineNumbers, lines, last, List.getLast_map, List.getLast_eq_getLastD]

namespace Maximal

/-- The lines of the blocks are among the lines. -/
theorem bounds (h : Maximal cs bs) (hcs : Listing n cs) (hb : b ∈ bs) :
    n ≤ b.first.line ∧ b.first.line ≤ b.last.line ∧ b.last.line < n + cs.length ∧
      ∀ m ∈ b.lineNumbers, b.first.line ≤ m ∧ m ≤ b.last.line := by
  have hline {l : BlockLine} (hl : l ∈ b.lines) : n ≤ l.line ∧ l.line < n + cs.length := by
    obtain ⟨c, hc, hread⟩ := h.read b hb l hl
    obtain ⟨hle, hlt, -⟩ := hcs.getElem?_of_mem hc
    rw [hread.line]
    exact ⟨hle, hlt⟩
  have hmem : ∀ m ∈ b.lineNumbers, b.first.line ≤ m ∧ m ≤ b.last.line := by
    intro m hm
    rw [h.consecutive b hb, List.mem_range'_1] at hm
    omega
  have hlast : b.last ∈ b.lines := by
    rw [last, lines, ← List.getLast_eq_getLastD]
    exact List.getLast_mem (List.cons_ne_nil _ _)
  exact ⟨(hline List.mem_cons_self).1, (hmem _ (List.mem_map_of_mem hlast)).1, (hline hlast).2, hmem⟩

theorem skip (h : Maximal rest bs) (hcs : Listing n (c :: rest)) (hc : BlockLine.directive? c = none) :
    Maximal (c :: rest) bs where
  apart := h.apart
  consecutive := h.consecutive
  read := fun b hb l hl => (h.read b hb l hl).imp fun _ hc' => ⟨List.mem_cons_of_mem c hc'.1, hc'.2⟩
  first := h.first
  others := h.others
  once := by
    refine List.forall_mem_cons.mpr ⟨fun hd => ?_, h.once⟩
    simp [← BlockLine.isSome_directive?, hc] at hd
  ended := by
    refine fun b hb => List.forall_mem_cons.mpr ⟨fun hline => ?_, h.ended b hb⟩
    have hbounds := h.bounds hcs.tail hb
    have hhead := hcs.head
    omega

end Maximal

/-- A line is one of the first, or behind them. -/
theorem place (hcs : Listing n (c :: (run ++ rest))) : ∀ c' ∈ c :: (run ++ rest),
    n ≤ c'.line ∧ c'.line ≤ n + run.length ∨ c' ∈ rest ∧ n + run.length < c'.line := by
  obtain ⟨hrun, hrest⟩ := hcs.tail.append
  refine List.forall_mem_cons.mpr ⟨.inl ?_, List.forall_mem_append.mpr ⟨fun c' hc' => .inl ?_, fun c' hc' => .inr ?_⟩⟩
  · have hhead := hcs.head
    omega
  · have hbounds := hrun.getElem?_of_mem hc'
    omega
  · have hbounds := hrest.getElem?_of_mem hc'
    exact ⟨hc', by omega⟩

section Block
variable (hcs : Listing n (c :: (run ++ rest))) (hc : BlockLine.directive? c = some first)
include hcs hc

theorem line_first_block : first.line = n := (line_directive? hc).trans hcs.head

variable (hrun : List.Forall₂ (fun c l => BlockLine.continues? first.indent c = some l) run others)
include hrun

theorem lineNumbers_block : lineNumbers ⟨first, others⟩ = List.range' n (run.length + 1) := by
  have hothers : others.map (·.line) = run.map (·.line) := by
    clear hcs
    induction hrun with
    | nil => rfl
    | cons hl _ ih => rw [List.map_cons, List.map_cons, ih, line_continues? hl]
  have htake := congrArg (List.take (run.length + 1)) hcs.numbers
  rw [lineNumbers, lines, List.map_cons, hothers, line_directive? hc]
  simpa using htake

theorem line_last_block : (AnnotationBlock.mk first others).last.line = n + run.length := by
  rw [← getLast_lineNumbers]
  simp [lineNumbers_block hcs hc hrun]

/-- A block in front of lines that are cut into blocks. -/
theorem Maximal.block (h : Maximal rest bs) (hend : ∀ c ∈ rest.head?, BlockLine.continues? first.indent c = none) :
    Maximal (c :: (run ++ rest)) (⟨first, others⟩ :: bs) := by
  have hfirst := line_first_block hcs hc
  have hlast := line_last_block hcs hc hrun
  have hnumbers := lineNumbers_block hcs hc hrun
  have hrest : Listing (n + 1 + run.length) rest := hcs.tail.append.2
  have hgoes : ∀ l ∈ others, ∃ c ∈ run, c.Reads l ∧ l.GoesOn first.indent := fun l hl => by
    obtain ⟨c, hc, hcl⟩ := mem_of_forall₂ hrun hl
    exact ⟨c, hc, BlockLine.continues?_iff.mp hcl⟩
  constructor
  case apart =>
    refine List.pairwise_cons.mpr ⟨fun b hb => ?_, h.apart⟩
    have hbounds := h.bounds hrest hb
    omega
  case consecutive =>
    refine List.forall_mem_cons.mpr ⟨?_, h.consecutive⟩
    rw [hnumbers, hlast, hfirst]
    congr 1
    omega
  case read =>
    refine List.forall_mem_cons.mpr ⟨List.forall_mem_cons.mpr ⟨?_, fun l hl => ?_⟩, fun b hb l hl => ?_⟩
    · exact ⟨c, List.mem_cons_self, (BlockLine.directive?_iff.mp hc).1⟩
    · obtain ⟨c', hc', hread, -⟩ := hgoes l hl
      exact ⟨c', List.mem_cons_of_mem c (List.mem_append_left rest hc'), hread⟩
    · obtain ⟨c', hc', hread⟩ := h.read b hb l hl
      exact ⟨c', List.mem_cons_of_mem c (List.mem_append_right run hc'), hread⟩
  case first =>
    exact List.forall_mem_cons.mpr ⟨(BlockLine.directive?_iff.mp hc).2, h.first⟩
  case others =>
    refine List.forall_mem_cons.mpr ⟨fun l hl => ?_, h.others⟩
    obtain ⟨_, _, _, hgoes⟩ := hgoes l hl
    exact hgoes
  case once =>
    intro c' hc' hd
    rcases place hcs c' hc' with hin | ⟨hc', hbehind⟩
    · refine ⟨⟨first, others⟩, ⟨List.mem_cons_self, ?_⟩, fun b' hb' => ?_⟩
      · rw [hnumbers, List.mem_range'_1]
        omega
      · refine (List.mem_cons.mp hb'.1).resolve_right fun hb => ?_
        have hbounds := h.bounds hrest hb
        have hline := hbounds.2.2.2 _ hb'.2
        omega
    · obtain ⟨b, ⟨hb, hline⟩, honly⟩ := h.once c' hc' hd
      refine ⟨b, ⟨List.mem_cons_of_mem _ hb, hline⟩, fun b' hb' => honly b' ⟨?_, hb'.2⟩⟩
      refine (List.mem_cons.mp hb'.1).resolve_left fun heq => ?_
      have hin := hb'.2
      rw [heq, hnumbers, List.mem_range'_1] at hin
      omega
  case ended =>
    refine List.forall_mem_cons.mpr ⟨fun c' hc' hline => ?_, fun b hb c' hc' hline => ?_⟩
    · rcases place hcs c' hc' with hin | ⟨hc', -⟩
      · omega
      · have hhead : rest.head? = some c' := by
          rw [List.head?_eq_getElem?, ← (hrest.getElem?_of_mem hc').2.2]
          congr 1
          omega
        exact (BlockLine.ends_iff (hrest.bodies c' hc')).mpr (hend c' hhead)
    · have hbounds := h.bounds hrest hb
      rcases place hcs c' hc' with hin | ⟨hc', -⟩
      · omega
      · exact h.ended b hb c' hc' hline

end Block

theorem Cut.maximal (h : Cut cs bs) (hcs : Listing n cs) : Maximal cs bs := by
  induction h generalizing n with
  | nil => exact ⟨.nil, nofun, nofun, nofun, nofun, nofun, nofun⟩
  | skip hc _ ih => exact (ih hcs.tail).skip hcs hc
  | block hc hrun hend _ ih => exact .block hcs hc hrun (ih hcs.tail.append.2) hend

namespace Maximal

theorem read_of_line (h : Maximal cs bs) (hcs : Listing n cs) (hb : b ∈ bs) {l : BlockLine} (hl : l ∈ b.lines)
    (hc : c ∈ cs) (hline : c.line = l.line) : c.Reads l := by
  obtain ⟨c', hc', hread⟩ := h.read b hb l hl
  obtain rfl := hcs.eq_of_line hc hc' (hline.trans hread.line)
  exact hread

theorem of_skip (h : Maximal (c :: rest) bs) (hcs : Listing n (c :: rest)) (hc : BlockLine.directive? c = none) :
    Maximal rest bs where
  apart := h.apart
  consecutive := h.consecutive
  read := fun b hb l hl => by
    obtain ⟨c', hc', hread⟩ := h.read b hb l hl
    refine ⟨c', (List.mem_cons.mp hc').resolve_left fun heq => ?_, hread⟩
    -- A line of the block that is the first of all would be the directive that the block starts with.
    have hbounds := h.bounds hcs hb
    have hline := hbounds.2.2.2 _ (List.mem_map_of_mem hl)
    have hhead := hcs.head
    have hfirst := h.read_of_line hcs hb List.mem_cons_self List.mem_cons_self
      (show c.line = b.first.line by rw [hread.line, heq] at hline; omega)
    simp [BlockLine.directive?_iff.mpr ⟨hfirst, h.first b hb⟩] at hc
  first := h.first
  others := h.others
  once := fun c' hc' => h.once c' (List.mem_cons_of_mem c hc')
  ended := fun b hb c' hc' => h.ended b hb c' (List.mem_cons_of_mem c hc')

/-- The first block starts at a directive line that is the first line. -/
theorem exists_head (h : Maximal (c :: rest) bs) (hcs : Listing n (c :: rest)) (hc : c.IsDirective) :
    ∃ b bs', bs = b :: bs' ∧ b.first.line = n ∧ c.Reads b.first := by
  have hhead := hcs.head
  obtain ⟨b, ⟨hb, hline⟩, -⟩ := h.once c List.mem_cons_self hc
  have hbounds := h.bounds hcs hb
  have hin := hbounds.2.2.2 _ hline
  cases bs with
  | nil => exact absurd hb List.not_mem_nil
  | cons b₀ bs' =>
    have hbounds₀ := h.bounds hcs List.mem_cons_self
    have hfirst : b₀.first.line = n := by
      rcases List.mem_cons.mp hb with rfl | hb'
      · omega
      · have hapart := (List.pairwise_cons.mp h.apart).1 b hb'
        omega
    refine ⟨b₀, bs', rfl, hfirst, ?_⟩
    exact h.read_of_line hcs List.mem_cons_self List.mem_cons_self List.mem_cons_self (hhead.trans hfirst.symm)

section Block
variable (h : Maximal (c :: (run ++ rest)) (b :: bs)) (hcs : Listing n (c :: (run ++ rest)))
  (hlast : b.last.line = n + run.length)
include h hcs hlast

theorem others_of_run (hfirst : b.first.line = n) :
    List.Forall₂ (fun c l => BlockLine.continues? b.first.indent c = some l) run b.others := by
  have hb : b ∈ b :: bs := List.mem_cons_self
  have hlines : List.Forall₂ (fun c l => c.line = l.line) run b.others := by
    have hnumbers := h.consecutive b hb
    rw [hfirst, hlast, show n + run.length + 1 - n = run.length + 1 by omega, lineNumbers, lines, List.map_cons,
      List.range'_succ] at hnumbers
    rw [forall₂_iff_map_eq, hcs.tail.append.1.numbers, (List.cons.inj hnumbers).2]
  obtain ⟨hlength, hzip⟩ := List.forall₂_iff_zip.mp hlines
  refine List.forall₂_iff_zip.mpr ⟨hlength, fun hp => ?_⟩
  obtain ⟨hc', hl⟩ := List.of_mem_zip hp
  refine BlockLine.continues?_iff.mpr ⟨?_, h.others b hb _ hl⟩
  exact h.read_of_line hcs hb (List.mem_cons_of_mem _ hl) (List.mem_cons_of_mem c (List.mem_append_left rest hc'))
    (hzip hp)

theorem ended_of_run : ∀ c ∈ rest.head?, BlockLine.continues? b.first.indent c = none := by
  have hrest := hcs.tail.append.2
  intro c' hc'
  have hmem := List.mem_of_mem_head? hc'
  have hline : c'.line = n + 1 + run.length + 0 :=
    hrest.line_of_getElem? (by rw [← List.head?_eq_getElem?]; exact hc')
  refine (BlockLine.ends_iff (hrest.bodies c' hmem)).mp ?_
  exact h.ended b List.mem_cons_self c' (List.mem_cons_of_mem c (List.mem_append_right run hmem)) (by omega)

theorem of_run : Maximal rest bs := by
  have hbounds := h.bounds hcs List.mem_cons_self
  have hrest (c') (hc' : c' ∈ rest) : c' ∈ c :: (run ++ rest) := List.mem_cons_of_mem c (List.mem_append_right run hc')
  constructor
  case apart => exact (List.pairwise_cons.mp h.apart).2
  case consecutive => exact (List.forall_mem_cons.mp h.consecutive).2
  case read =>
    intro b' hb' l hl
    obtain ⟨c', hc', hread⟩ := h.read b' (List.mem_cons_of_mem b hb') l hl
    -- The lines of the later blocks are behind the first block.
    have hapart := (List.pairwise_cons.mp h.apart).1 b' hb'
    have hbounds' := h.bounds hcs (List.mem_cons_of_mem b hb')
    have hline := hbounds'.2.2.2 _ (List.mem_map_of_mem hl)
    rw [hread.line] at hline
    refine ⟨c', ?_, hread⟩
    rcases place hcs c' hc' with hfront | ⟨hc', -⟩
    · omega
    · exact hc'
  case first => exact (List.forall_mem_cons.mp h.first).2
  case others => exact (List.forall_mem_cons.mp h.others).2
  case once =>
    intro c' hc' hd
    obtain ⟨b', ⟨hb', hline⟩, honly⟩ := h.once c' (hrest c' hc') hd
    refine ⟨b', ⟨(List.mem_cons.mp hb').resolve_left ?_, hline⟩, fun b'' hb'' => ?_⟩
    · rintro rfl
      have hin := hbounds.2.2.2 _ hline
      have hbehind := hcs.tail.append.2.getElem?_of_mem hc'
      omega
    · exact honly b'' ⟨List.mem_cons_of_mem b hb''.1, hb''.2⟩
  case ended => exact fun b' hb' c' hc' => h.ended b' (List.mem_cons_of_mem b hb') c' (hrest c' hc')

end Block

theorem of_block (h : Maximal (c :: rest) bs) (hcs : Listing n (c :: rest)) (hc : BlockLine.directive? c = some first) :
    ∃ run rest' others bs', rest = run ++ rest' ∧ bs = ⟨first, others⟩ :: bs' ∧
      List.Forall₂ (fun c l => BlockLine.continues? first.indent c = some l) run others ∧
      (∀ c ∈ rest'.head?, BlockLine.continues? first.indent c = none) ∧ Maximal rest' bs' := by
  obtain ⟨⟨first', others⟩, bs', rfl, hline, hread⟩ := h.exists_head hcs (BlockLine.isSome_directive?.mp (hc ▸ rfl))
  have hfirst := BlockLine.directive?_iff.mpr ⟨hread, h.first _ List.mem_cons_self⟩
  obtain rfl : first' = first := Option.some.inj (hfirst.symm.trans hc)
  have hbounds := h.bounds hcs List.mem_cons_self
  obtain ⟨run, rest', rfl, hlast⟩ : ∃ run rest', rest = run ++ rest' ∧
      (AnnotationBlock.mk first' others).last.line = n + run.length := by
    refine ⟨rest.take _, rest.drop _, (List.take_append_drop
      ((AnnotationBlock.mk first' others).last.line - n) rest).symm, ?_⟩
    rw [List.length_cons] at hbounds
    rw [List.length_take]
    omega
  exact ⟨run, rest', others, bs', rfl, rfl, h.others_of_run hcs hlast hline, h.ended_of_run hcs hlast,
    h.of_run hcs hlast⟩

theorem cut (h : Maximal cs bs) (hcs : Listing n cs) : Cut cs bs := by
  induction hn : cs.length using Nat.strong_induction_on generalizing n cs bs with
  | _ m ih =>
    cases cs with
    | nil =>
      cases bs with
      | nil => exact .nil
      | cons b bs =>
        obtain ⟨c, hc, -⟩ := h.read b List.mem_cons_self b.first List.mem_cons_self
        exact absurd hc List.not_mem_nil
    | cons c cs =>
      rw [List.length_cons] at hn
      cases hd : BlockLine.directive? c with
      | none => exact .skip hd (ih cs.length (by omega) (h.of_skip hcs hd) hcs.tail rfl)
      | some first =>
        obtain ⟨run, rest, others, bs', rfl, rfl, hrun, hend, hrest⟩ := h.of_block hcs hd
        rw [List.length_append] at hn
        exact .block hd hrun hend (ih rest.length (by omega) hrest hcs.tail.append.2 rfl)

end Maximal

/-- The blocks of a text are its maximal ones. -/
theorem scan_eq_iff (s : CommentSyntax) (t : Text) (bs : List AnnotationBlock) :
    scan s t = bs ↔ Maximal (CommentLine.classify s t) bs := by
  have hlisting := listing_classifyFrom s none 1 (Text.lines t)
  exact scanFrom_eq_iff.trans ⟨fun h => h.maximal hlisting, fun h => h.cut hlisting⟩

end AnnotationBlock
end AnnotationIndex
