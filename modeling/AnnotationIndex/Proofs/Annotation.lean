import AnnotationIndex.Proofs.IndexedFile

/-!
Where the annotations of a file come from. Each is stated by an entry of a block, perhaps with the provenance of a
group, and a file keeps only annotations of its blocks.
-/
namespace AnnotationIndex
open Text

namespace AnnotatedBlock
variable {rules : AnnotationRules} {file : Text} {b : AnnotationBlock}

inductive Stated (rules : AnnotationRules) (file : Text) (b : AnnotationBlock) : AnnotationRecord → Prop where
  | entry {e : Entry} {a : AnnotationRecord} (he : e ∈ (entries b).1) (h : annotation rules e = .ok a) :
      Stated rules file b a
  | group {a : AnnotationRecord} {lines : List SourceLine} {p : Provenance} {reports : List Diagnostic}
      (h : Stated rules file b a) (hp : Provenance.ofGroup rules.mode rules.threshold file lines = .ok (p, reports)) :
      Stated rules file b { a with provenance := p }

namespace Progress
variable {p p' : Progress}

def All (P : AnnotationRecord → Prop) (p : Progress) : Prop := ∀ a ∈ p.settled ++ p.pending, P a

theorem all_start (P : AnnotationRecord → Prop) (reports : List Diagnostic) : All P ⟨[], [], [], reports⟩ :=
  fun _ ha => absurd ha List.not_mem_nil

theorem all_endGroup (hp : p.All (Stated rules file b)) (h : p.endGroup rules file = .ok p') :
    p'.All (Stated rules file b) := by
  unfold endGroup at h
  split at h
  · obtain rfl := Except.ok.inj h
    exact hp
  · split at h
    · obtain rfl := Except.ok.inj h
      exact hp
    · split at h
      · exact absurd h (by simp)
      next hgroup =>
      obtain rfl := Except.ok.inj h
      intro a ha
      simp only [List.append_nil, List.mem_append, List.mem_map] at ha
      cases ha with
      | inl ha => exact hp a (List.mem_append_left _ ha)
      | inr ha =>
        obtain ⟨a₀, ha₀, rfl⟩ := ha
        exact .group (hp a₀ (List.mem_append_right _ ha₀)) hgroup

theorem all_step {e : Entry} (he : e ∈ (entries b).1) (hp : p.All (Stated rules file b))
    (h : p.step rules file e = .ok p') : p'.All (Stated rules file b) := by
  unfold step at h
  split at h
  · obtain rfl := Except.ok.inj h
    exact hp
  · obtain ⟨q, hend, h⟩ := bind_eq_ok.mp h
    have hq := all_endGroup hp hend
    cases ha : annotation rules e with
    | ok a =>
      rw [ha] at h
      obtain rfl := Except.ok.inj h
      intro a' ha'
      rw [← List.append_assoc, List.mem_append, List.mem_singleton] at ha'
      cases ha' with
      | inl ha' => exact hq a' ha'
      | inr ha' => exact ha' ▸ .entry he ha
    | error f =>
      rw [ha] at h
      obtain ⟨report, -, h⟩ := bind_eq_ok.mp h
      obtain rfl := Except.ok.inj h
      exact hq

theorem all_foldlM {es : List Entry} (hes : ∀ e ∈ es, e ∈ (entries b).1) (hp : p.All (Stated rules file b))
    (h : es.foldlM (step rules file) p = .ok p') : p'.All (Stated rules file b) := by
  induction es generalizing p with
  | nil =>
    obtain rfl : p = p' := Except.ok.inj h
    exact hp
  | cons e rest ih =>
    rw [List.foldlM_cons, bind_eq_ok] at h
    obtain ⟨q, hs, h⟩ := h
    obtain ⟨he, hrest⟩ := List.forall_mem_cons.mp hes
    exact ih hrest (all_step he hp hs) h

end Progress

theorem stated_ofBlock {ab : AnnotatedBlock} {reports : List Diagnostic}
    (h : ofBlock rules file b = .ok (ab, reports)) :
    ab.lineSpan = ⟨b.first.line, b.last.line⟩ ∧ ∀ a ∈ ab.annotations, Stated rules file b a := by
  simp only [ofBlock, bind_eq_ok] at h
  obtain ⟨_, _, p, hfold, p', hend, h⟩ := h
  obtain ⟨rfl, -⟩ := Prod.mk.inj (Except.ok.inj h)
  refine ⟨rfl, ?_⟩
  exact Progress.all_endGroup (Progress.all_foldlM (fun _ he => he) (Progress.all_start _ _) hfold) hend

/-- The annotation that an entry states under a rule. Where a directive is required and missing, the rule's stands
in. -/
def Entry.stating (e : Entry) (rule : NamespaceRule) (payload : Payload) : AnnotationRecord :=
  let d := e.directive
  let missing := d.directive.isEmpty && rule.requiresDirective
  { nameSpace := d.nameSpace, subNamespace := d.subNamespace, parameters := d.parameters, value := d.value
    directive := if missing then (rule.standIn.bind (·.directive? payload)).getD [] else d.directive
    lineSpan := e.span, provenance := Provenance.byHand, payload, autoGenerated := missing }

theorem annotation_ok {e : Entry} {a : AnnotationRecord} (h : annotation rules e = .ok a) : ∃ rule payload,
    NamespaceRule.find? rules.custom e.directive.nameSpace = some rule ∧
      rule.shape.read e.directive.parameters e.directive.value e.directive.directive = .ok payload ∧
      a = e.stating rule payload := by
  unfold annotation at h
  dsimp only at h
  split at h
  · exact absurd h (by simp)
  next rule hrule =>
  split at h
  · exact absurd h (by simp)
  next payload hpayload =>
  split at h
  · exact absurd h (by simp)
  · exact ⟨rule, payload, hrule, hpayload, (Except.ok.inj h).symm⟩

/-- A namespace is accepted only if it has a rule. -/
theorem find?_of_stated {a : AnnotationRecord} (h : Stated rules file b a) :
    (NamespaceRule.find? rules.custom a.nameSpace).isSome = true := by
  induction h with
  | group _ _ ih => exact ih
  | entry _ h =>
    obtain ⟨rule, payload, hrule, _, rfl⟩ := annotation_ok h
    exact Option.isSome_iff_exists.mpr ⟨rule, hrule⟩

end AnnotatedBlock

/-- The blocks of a text have the annotations that the text states. -/
theorem Annotations.stated_ofText {rules : AnnotationRules} {s : CommentSyntax} {file t : Text} {as : Annotations}
    (h : ofText rules s file t = .ok as) {ab : AnnotatedBlock} (hab : ab ∈ as.blocks) :
    ∃ b ∈ AnnotationBlock.scan s t, ab.lineSpan = ⟨b.first.line, b.last.line⟩ ∧
      ∀ a ∈ ab.annotations, AnnotatedBlock.Stated rules file b a := by
  rw [ofText, bind_eq_ok] at h
  obtain ⟨parsed, hm, h⟩ := h
  obtain rfl := Except.ok.inj h
  obtain ⟨e, he, rfl⟩ := List.mem_map.mp (List.mem_filter.mp hab).1
  obtain ⟨b, hb, hparsed⟩ := mem_of_mapM_ok hm he
  exact ⟨b, hb, AnnotatedBlock.stated_ofBlock hparsed⟩

def BlockTarget.above? : BlockTarget → Option Nat
  | .symbol i _ => some i
  | _ => none

namespace Association
variable {file : Text} {blocks : List AnnotatedBlock} {ds : List Declaration} {kinds : List LineKind}

theorem mem_of_closer {placed : List (Placed × Nat)} {i : Nat} {best : Option (Nat × AnnotatedBlock × Int)}
    {w : Nat × AnnotatedBlock × Int} (h : placed.foldl (winner?.closer i) best = some w) :
    (∃ b ∈ placed, b.2 = w.1 ∧ b.1.1 = w.2.1 ∧ b.1.2.above? = some i) ∨ best = some w := by
  induction placed generalizing best with
  | nil => exact .inr h
  | cons b rest ih =>
    cases ih h with
    | inl hw =>
      obtain ⟨b', hb', he⟩ := hw
      exact .inl ⟨b', List.mem_cons_of_mem _ hb', he⟩
    | inr hw =>
      unfold winner?.closer at hw
      split at hw
      · next j distance htarget =>
        split at hw
        · exact .inr hw
        next hj =>
        have hof : b.1.2.above? = some i := by rw [htarget, BlockTarget.above?, not_not.mp hj]
        split at hw
        · exact .inl ⟨b, List.mem_cons_self, congrArg (·.1) (Option.some.inj hw), congrArg (·.2.1) (Option.some.inj hw),
            hof⟩
        · split at hw
          · exact .inl ⟨b, List.mem_cons_self, congrArg (·.1) (Option.some.inj hw),
              congrArg (·.2.1) (Option.some.inj hw), hof⟩
          · exact .inr hw
      · exact .inr hw

/-- The closest block for a declaration is one of the blocks for it. -/
theorem mem_zipIdx_of_winner? {placed : List Placed} {i n : Nat} {w : AnnotatedBlock}
    (h : winner? placed i = some (n, w)) : ∃ b ∈ placed.zipIdx, b.2 = n ∧ b.1.1 = w ∧ b.1.2.above? = some i := by
  obtain ⟨w', hw', he⟩ := Option.map_eq_some_iff.mp h
  obtain ⟨b, hb, hn, hw, hof⟩ := (mem_of_closer hw').resolve_right nofun
  exact ⟨b, hb, hn.trans (congrArg (·.1) he), hw.trans (congrArg (·.2) he), hof⟩

theorem mem_of_winner? {placed : List Placed} {i n : Nat} {w : AnnotatedBlock} (h : winner? placed i = some (n, w)) :
    ∃ b ∈ placed, b.1 = w ∧ b.2.above? = some i := by
  obtain ⟨b, hb, _, hw, hof⟩ := mem_zipIdx_of_winner? h
  exact ⟨b.1, List.fst_mem_of_mem_zipIdx hb, hw, hof⟩

theorem block_of_placed {p : Placed}
    (hp : p ∈ blocks.map fun b => (b, BlockTarget.ofBlock ds kinds b.lineSpan)) : p.1 ∈ blocks := by
  obtain ⟨b, hb, rfl⟩ := List.mem_map.mp hp
  exact hb

theorem mem_of_inlineOf {owner : Option Nat} {records : List AnnotationRecord} {m : InlineRecord}
    (hm : m ∈ inlineOf owner records) : m.record ∈ records := by
  obtain ⟨r, hr, rfl⟩ := List.mem_map.mp hm
  exact (List.mem_filter.mp hr).1

theorem records_of_share {placed : List Placed} {b : Placed × Nat} {a : AnnotationRecord}
    (ha : a ∈ (share file ds placed b).1) : a ∈ b.1.1.annotations := by
  unfold share at ha
  split at ha
  · exact ha
  · exact (List.mem_filter.mp ha).1
  · split at ha
    · split at ha
      · exact (List.mem_filter.mp ha).1
      · exact absurd ha List.not_mem_nil
    · exact absurd ha List.not_mem_nil

theorem inline_of_share {placed : List Placed} {b : Placed × Nat} {m : InlineRecord}
    (hm : m ∈ (share file ds placed b).2.1) : m.record ∈ b.1.1.annotations := by
  unfold share at hm
  split at hm
  · exact mem_of_inlineOf hm
  · exact mem_of_inlineOf hm
  · split at hm
    · split at hm
      · exact mem_of_inlineOf hm
      · exact absurd hm List.not_mem_nil
    · exact absurd hm List.not_mem_nil

/-- The file's own annotations are annotations of its blocks. -/
theorem mem_fileRecords {a : AnnotationRecord} (ha : a ∈ (ofBlocks file blocks ds kinds).fileRecords) :
    ∃ b ∈ blocks, a ∈ b.annotations := by
  simp only [ofBlocks, List.mem_flatMap, List.mem_map (f := share _ _ _)] at ha
  obtain ⟨_, ⟨b, hb, rfl⟩, ha⟩ := ha
  exact ⟨_, block_of_placed (List.fst_mem_of_mem_zipIdx hb), records_of_share ha⟩

/-- The annotations of a declaration are annotations of one block. -/
theorem mem_symbolRecords {as : List AnnotationRecord} (has : as ∈ (ofBlocks file blocks ds kinds).symbolRecords)
    {a : AnnotationRecord} (ha : a ∈ as) : ∃ b ∈ blocks, a ∈ b.annotations := by
  rw [ofBlocks, List.mem_map] at has
  obtain ⟨⟨d, i⟩, _, rfl⟩ := has
  dsimp only at ha
  split at ha
  · next hw =>
    obtain ⟨p, hp, rfl, _⟩ := mem_of_winner? hw
    exact ⟨_, block_of_placed hp, (List.mem_filter.mp ha).1⟩
  · exact absurd ha List.not_mem_nil

theorem mem_inline {m : InlineRecord} (hm : m ∈ (ofBlocks file blocks ds kinds).inline) :
    ∃ b ∈ blocks, m.record ∈ b.annotations := by
  simp only [ofBlocks, List.mem_flatMap, List.mem_map (f := share _ _ _)] at hm
  obtain ⟨_, ⟨b, hb, rfl⟩, hm⟩ := hm
  exact ⟨_, block_of_placed (List.fst_mem_of_mem_zipIdx hb), inline_of_share hm⟩

end Association

namespace IndexedFile

def association (rules : IndexRules) (path text : Text) : Association :=
  Association.ofBlocks path (blocksOf rules path text).1 (outlineOf rules path text).1.declarations
    ((CommentLine.classify (commentSyntax rules path) text).map (·.kind))

def kept (rules : IndexRules) (path text : Text) : List AnnotationRecord :=
  (association rules path text).fileRecords ++ (association rules path text).symbolRecords.flatten

theorem stated_blocksOf {rules : IndexRules} {path text : Text} {ab : AnnotatedBlock}
    (hab : ab ∈ (blocksOf rules path text).1) :
    ∃ b ∈ AnnotationBlock.scan (commentSyntax rules path) text, ab.lineSpan = ⟨b.first.line, b.last.line⟩ ∧
      ∀ a ∈ ab.annotations, AnnotatedBlock.Stated rules.annotations path b a := by
  unfold blocksOf at hab
  split at hab
  · next has => exact Annotations.stated_ofText has hab
  · exact absurd hab List.not_mem_nil

theorem block_of_kept {rules : IndexRules} {path text : Text} {a : AnnotationRecord} (ha : a ∈ kept rules path text) :
    ∃ ab ∈ (blocksOf rules path text).1, a ∈ ab.annotations := by
  cases List.mem_append.mp ha with
  | inl ha => exact Association.mem_fileRecords ha
  | inr ha =>
    obtain ⟨as, has, ha⟩ := List.mem_flatten.mp ha
    exact Association.mem_symbolRecords has ha

end IndexedFile
end AnnotationIndex
