import AnnotationIndex.Outline.UseTree
import AnnotationIndex.Proofs.DirectiveText
import AnnotationIndex.Proofs.PatternReading
import AnnotationIndex.Proofs.Segments

/-!
Use trees as they are written, and what is read of them. A tree stands for the ways from its root to its leaves:
each gives an imported path, the names on the way. A renaming is seen if the new name is a word and the path in
front of it stands on one line; one that is not seen is taken into the last name of the path.
-/
namespace AnnotationIndex
open Text

namespace Text
variable {u : UInt16} {s : Text}

theorem find?_of_not_mem (h : u ∉ s) : find? [u] s = none := by
  rw [← Option.not_isSome_iff_eq_none, isSome_find?]
  exact fun hfound => h (hfound.subset List.mem_cons_self)

theorem find?_append (h : u ∉ s) (t : Text) : find? [u] (s ++ u :: t) = some s.length := by
  induction s with
  | nil => simp [find?]
  | cons v s ih =>
    obtain ⟨hv, hs⟩ := List.ne_and_not_mem_of_not_mem_cons h
    simp [find?, hv, ih hs]

theorem findLast?_append (s : Text) : findLast? [u] (s ++ [u]) = some s.length := by
  induction s with
  | nil => simp [findLast?]
  | cons v s ih => rw [List.cons_append, findLast?, ih, List.length_cons]

end Text

namespace UseTree

def isNameUnit (u : UInt16) : Bool := !isBlank u && Pattern.notOneOf ":,*\x7b\x7d" u

structure Gap where
  text : Text
  blank : ∀ u ∈ text, isBlank u = true

structure Name where
  text : Text
  nonempty : text ≠ []
  plain : ∀ u ∈ text, isNameUnit u = true

structure Step where
  name : Name
  before : Gap
  after : Gap

def Step.text (s : Step) : Text := s.name.text ++ (s.before.text ++ ("::" ++ s.after.text))

/-- The beginning of a path, up to its last double colon; `root` is the gap behind a double colon that it starts
with. -/
structure Lead where
  root : Option Gap
  steps : List Step

namespace Lead

def body (l : Lead) : Text := l.root.elim [] Gap.text ++ l.steps.flatMap Step.text

def text (l : Lead) : Text := l.root.elim [] (fun _ => ofString "::") ++ l.body

def names (l : Lead) : List Text := l.steps.map (·.name.text)

end Lead

structure Rename where
  before : Gap
  after : Gap
  before_ne_nil : before.text ≠ []
  after_ne_nil : after.text ≠ []
  name : Name

inductive Ending where
  | name (n : Name)
  | renamed (n : Name) (r : Rename)
  | all

namespace Ending

def text : Ending → Text
  | name n => n.text
  | renamed n r => n.text ++ (r.before.text ++ ("as" ++ (r.after.text ++ r.name.text)))
  | all => "*"

end Ending

mutual

inductive Tree where
  | leaf (lead : Lead) (ending : Ending)
  | group (lead : Lead) (trees : Trees)

inductive Trees where
  | none (gap : Gap)
  | last (before : Gap) (t : Tree) (after : Gap)
  | cons (before : Gap) (t : Tree) (after : Gap) (rest : Trees)

end

mutual

def Tree.text : Tree → Text
  | .leaf lead ending => lead.text ++ ending.text
  | .group lead trees => lead.text ++ (unit '\x7b' :: (trees.text ++ [unit '\x7d']))

def Trees.text : Trees → Text
  | .none gap => gap.text
  | .last before t after => before.text ++ (t.text ++ after.text)
  | .cons before t after rest => before.text ++ (t.text ++ after.text) ++ (unit ',' :: rest.text)

end

structure Way where
  before : List Text
  lead : Lead
  ending : Ending

mutual

def Tree.ways (before : List Text) : Tree → List Way
  | .leaf lead ending => [⟨before, lead, ending⟩]
  | .group lead trees => trees.ways (before ++ lead.names)

def Trees.ways (before : List Text) : Trees → List Way
  | .none _ => []
  | .last _ t _ => t.ways before
  | .cons _ t _ rest => t.ways before ++ rest.ways before

end

namespace Way

def names (w : Way) : List Text := w.before ++ w.lead.names

def leaf (w : Way) : UseLeaf :=
  match w.ending with
  | .name n => ⟨w.names ++ [n.text], none, false⟩
  | .renamed n r => ⟨w.names ++ [n.text], some r.name.text, false⟩
  | .all => ⟨w.names, none, true⟩

/-- Whether a renaming is seen: its name is a word, and no line ends in front of it. -/
def isSeen (w : Way) : Bool :=
  match w.ending with
  | .renamed _ r => r.name.text.all isWord && !w.lead.body.any isLineTerminator
  | _ => true

def read (w : Way) : UseLeaf := if w.isSeen then w.leaf else ⟨w.names ++ [w.ending.text], none, false⟩

theorem read_eq_leaf_iff (w : Way) : w.read = w.leaf ↔ w.isSeen = true := by
  obtain ⟨before, lead, ending⟩ := w
  by_cases h : isSeen ⟨before, lead, ending⟩ = true
  · simp [read, h]
  · rw [read, if_neg h]
    cases ending with
    | renamed n r => simp [leaf, h]
    | name n => exact absurd rfl h
    | all => exact absurd rfl h

end Way

section Units
variable {u : UInt16}

theorem Name.not_isBlank (n : Name) (hu : u ∈ n.text) : isBlank u = false := by
  have h := n.plain u hu
  simp_all [isNameUnit]

theorem Name.ne_mark (n : Name) (hu : u ∈ n.text) {v : UInt16} (hv : v ∈ ofString ":,*\x7b\x7d") : u ≠ v := by
  rintro rfl
  have h := n.plain u hu
  simp_all [isNameUnit, Pattern.notOneOf]

theorem Name.colon_not_mem (n : Name) : unit ':' ∉ n.text := fun hm => n.ne_mark hm (by decide) rfl

theorem colon_not_mem_of_blank {g : Text} (hg : ∀ u ∈ g, isBlank u = true) : unit ':' ∉ g := fun hm =>
  absurd (hg _ hm) (by decide)

def isPlain (u : UInt16) : Bool := u != unit ',' && u != unit '\x7b' && u != unit '\x7d'

theorem Gap.isPlain (g : Gap) : ∀ u ∈ g.text, isPlain u = true := fun u hu => by
  have hne {v : UInt16} (hv : isBlank v = false) : u ≠ v := Mask.ne_of_isBlank (g.blank u hu) hv
  simp [UseTree.isPlain, hne (v := unit ',') (by decide), hne (v := unit '\x7b') (by decide),
    hne (v := unit '\x7d') (by decide)]

theorem Name.isPlain (n : Name) : ∀ u ∈ n.text, isPlain u = true := fun u hu => by
  have hne {v : UInt16} (hv : v ∈ ofString ":,*\x7b\x7d") : u ≠ v := n.ne_mark hu hv
  simp [UseTree.isPlain, hne (v := unit ',') (by decide), hne (v := unit '\x7b') (by decide),
    hne (v := unit '\x7d') (by decide)]

theorem isPlain_colons : ∀ u ∈ ofString "::", isPlain u = true := List.all_eq_true.mp (by decide)

theorem Step.isPlain (s : Step) : ∀ u ∈ s.text, isPlain u = true := by
  simp only [Step.text, List.forall_mem_append]
  exact ⟨s.name.isPlain, s.before.isPlain, isPlain_colons, s.after.isPlain⟩

theorem Lead.isPlain_body (l : Lead) : ∀ u ∈ l.body, isPlain u = true := by
  refine List.forall_mem_append.mpr ⟨?_, fun u hu => ?_⟩
  · cases l.root with
    | none => exact nofun
    | some g => exact g.isPlain
  · obtain ⟨s, -, hu⟩ := List.mem_flatMap.mp hu
    exact s.isPlain u hu

theorem Lead.isPlain (l : Lead) : ∀ u ∈ l.text, isPlain u = true := by
  refine List.forall_mem_append.mpr ⟨?_, l.isPlain_body⟩
  cases l.root with
  | none => exact nofun
  | some g => exact isPlain_colons

theorem Ending.isPlain (e : Ending) : ∀ u ∈ e.text, isPlain u = true := by
  have has : ∀ u ∈ ofString "as", UseTree.isPlain u = true := List.all_eq_true.mp (by decide)
  cases e with
  | name n => exact n.isPlain
  | renamed n r =>
    simp only [Ending.text, List.forall_mem_append]
    exact ⟨n.isPlain, r.before.isPlain, has, r.after.isPlain, r.name.isPlain⟩
  | all => exact List.all_eq_true.mp (by decide : (ofString "*").all UseTree.isPlain = true)

end Units

section Parts
variable {d : Int} {s t : Text}

def Passes (d : Int) (s : Text) : Prop :=
  ∀ current rest, partsFrom d current (s ++ rest) = partsFrom d (s.reverse ++ current) rest

theorem Passes.append (hs : Passes d s) (ht : Passes d t) : Passes d (s ++ t) := fun current rest => by
  rw [List.append_assoc, hs, ht, List.reverse_append, List.append_assoc]

theorem passes_plain (h : ∀ u ∈ s, isPlain u = true) : Passes d s := by
  induction s with
  | nil => exact fun _ _ => rfl
  | cons u s ih =>
    intro current rest
    obtain ⟨hu, hs⟩ := List.forall_mem_cons.mp h
    simp only [isPlain, Bool.and_eq_true, bne_iff_ne] at hu
    have hstep : partsFrom d current (u :: (s ++ rest)) = partsFrom d (u :: current) (s ++ rest) := by
      simp [partsFrom, hu]
    rw [List.cons_append, hstep, ih hs, List.reverse_cons, List.append_assoc]
    rfl

theorem passes_comma (hd : d ≠ 0) : Passes d [unit ','] := fun current rest => by
  have hopen : unit ',' ≠ unit '\x7b' := by decide
  have hclose : unit ',' ≠ unit '\x7d' := by decide
  simp [partsFrom, hopen, hclose, hd]

theorem Passes.braced (h : Passes (d + 1) s) : Passes d (unit '\x7b' :: (s ++ [unit '\x7d'])) := fun current rest => by
  have hcomma : unit '\x7b' ≠ unit ',' := by decide
  have hcomma' : unit '\x7d' ≠ unit ',' := by decide
  have hopen : unit '\x7d' ≠ unit '\x7b' := by decide
  have hstart : partsFrom d current (unit '\x7b' :: (s ++ (unit '\x7d' :: rest))) =
      partsFrom (d + 1) (unit '\x7b' :: current) (s ++ (unit '\x7d' :: rest)) := by
    simp [partsFrom, hcomma]
  have hstop (taken : Text) :
      partsFrom (d + 1) taken (unit '\x7d' :: rest) = partsFrom d (unit '\x7d' :: taken) rest := by
    simp [partsFrom, hcomma', hopen]
  rw [List.cons_append, List.append_assoc, List.singleton_append, hstart, h, hstop]
  simp

mutual

theorem Tree.passes : ∀ (t : Tree) {d : Int}, 0 ≤ d → Passes d t.text
  | .leaf lead ending, _, _ => (passes_plain lead.isPlain).append (passes_plain ending.isPlain)
  | .group lead trees, _, hd => (passes_plain lead.isPlain).append (Passes.braced (trees.passes (by omega)))

theorem Trees.passes : ∀ (ts : Trees) {d : Int}, 0 < d → Passes d ts.text
  | .none gap, _, _ => passes_plain gap.isPlain
  | .last before t after, _, hd =>
    (passes_plain before.isPlain).append ((t.passes (Int.le_of_lt hd)).append (passes_plain after.isPlain))
  | .cons before t after rest, _, hd =>
    ((passes_plain before.isPlain).append ((t.passes (Int.le_of_lt hd)).append (passes_plain after.isPlain))).append
      ((passes_comma (Int.ne_of_gt hd)).append (rest.passes hd))

end

end Parts

section Ends
variable {tail : Text}

theorem Name.trimmed (n : Name) : Trimmed n.text :=
  ⟨fun _ hu => n.not_isBlank (List.mem_of_mem_head? hu), fun _ hu => n.not_isBlank (List.mem_of_mem_getLast? hu)⟩

theorem Ending.text_ne_nil (e : Ending) : e.text ≠ [] := by
  cases e with
  | name n => exact n.nonempty
  | renamed n r => exact List.append_ne_nil_of_left_ne_nil n.nonempty _
  | all => exact (by decide : ofString "*" ≠ [])

theorem Ending.trimmed (e : Ending) : Trimmed e.text := by
  cases e with
  | name n => exact n.trimmed
  | renamed n r =>
    have hinner :
        Ending.text (.renamed n r) = n.text ++ ((r.before.text ++ ("as" ++ r.after.text)) ++ r.name.text) := by
      simp [Ending.text]
    rw [hinner]
    exact n.trimmed.append n.nonempty r.name.trimmed r.name.nonempty _
  | all => exact trim_eq_self_iff.mp (by decide)

/-- Steps begin with a name. -/
theorem head_steps {p : UInt16 → Prop} (hname : ∀ n : Name, ∀ u ∈ n.text, p u) (htail : ∀ u ∈ tail.head?, p u)
    (steps : List Step) : ∀ u ∈ (steps.flatMap Step.text ++ tail).head?, p u := by
  cases steps with
  | nil => exact htail
  | cons s steps =>
    rw [List.flatMap_cons, Step.text, List.append_assoc, List.append_assoc,
      List.head?_append_of_ne_nil _ s.name.nonempty]
    exact fun u hu => hname s.name u (List.mem_of_mem_head? hu)

theorem Lead.trimmed_append (l : Lead) (htail : Trimmed tail) (hne : tail ≠ []) : Trimmed (l.text ++ tail) where
  start := by
    rw [Lead.text, Lead.body, List.append_assoc]
    cases l.root with
    | none => exact head_steps (fun n _ => n.not_isBlank) htail.start l.steps
    | some g => exact fun u hu => Option.some.inj hu ▸ by decide
  stop := by
    rw [List.getLast?_append_of_ne_nil _ hne]
    exact htail.stop

theorem Lead.dropHead_append (l : Lead) (htail : ∀ u ∈ tail.head?, u ≠ unit ':') :
    dropHead "::" (l.text ++ tail) = l.body ++ tail := by
  rw [Lead.text, dropHead]
  cases hroot : l.root with
  | some g =>
    rw [Option.elim_some, List.append_assoc, if_pos (List.isPrefixOf_iff_prefix.mpr (List.prefix_append _ _)),
      List.drop_left]
  | none =>
    have hhead := head_steps (fun n _ hu => n.ne_mark hu (by decide)) htail l.steps
    rw [Option.elim_none, List.nil_append, if_neg]
    rw [Lead.body, hroot, Option.elim_none, List.nil_append, List.isPrefixOf_iff_prefix]
    rintro ⟨rest, hrest⟩
    rw [← hrest] at hhead
    exact hhead (unit ':') rfl rfl

theorem Tree.text_ne_nil (t : Tree) : t.text ≠ [] := by
  cases t with
  | leaf lead ending => exact List.append_ne_nil_of_right_ne_nil _ ending.text_ne_nil
  | group lead trees => exact List.append_ne_nil_of_right_ne_nil _ (List.cons_ne_nil _ _)

theorem Tree.trimmed (t : Tree) : Trimmed t.text := by
  cases t with
  | leaf lead ending => exact lead.trimmed_append ending.trimmed ending.text_ne_nil
  | group lead trees =>
    have hopen : Trimmed [unit '\x7b'] := trim_eq_self_iff.mp (by decide)
    have hclose : Trimmed [unit '\x7d'] := trim_eq_self_iff.mp (by decide)
    have hbraces := hopen.append (List.cons_ne_nil _ _) hclose (List.cons_ne_nil _ _) trees.text
    exact lead.trimmed_append hbraces (List.cons_ne_nil _ _)

end Ends

section Groups

/-- A tree that stands first in a group is the first of its parts. -/
theorem partsFrom_tree (before : Gap) (t : Tree) (after : Gap) (rest : Text) :
    partsFrom 0 [] (before.text ++ (t.text ++ after.text) ++ rest) =
      partsFrom 0 (before.text ++ (t.text ++ after.text)).reverse rest := by
  have hpasses : Passes 0 (before.text ++ (t.text ++ after.text)) :=
    (passes_plain before.isPlain).append ((t.passes (Int.le_refl 0)).append (passes_plain after.isPlain))
  rw [hpasses, List.append_nil]

theorem trim_tree (before : Gap) (t : Tree) (after : Gap) : trim (before.text ++ (t.text ++ after.text)) = t.text :=
  (trim_blanks_append _ _ _ before.blank after.blank).trans (trim_eq_self_iff.mpr t.trimmed)

theorem trim_gap (g : Gap) : trim g.text = [] := by
  rw [← List.append_nil g.text, ← List.append_nil g.text, List.append_assoc]
  exact trim_blanks_append g.text [] [] g.blank nofun

theorem parts_none (gap : Gap) : parts gap.text = [] := by
  have hpasses : Passes 0 gap.text := passes_plain gap.isPlain
  have h := hpasses [] []
  rw [List.append_nil, List.append_nil] at h
  rw [parts, h, partsFrom, List.reverse_reverse, trim_gap]
  rfl

theorem parts_last (before : Gap) (t : Tree) (after : Gap) :
    parts (before.text ++ (t.text ++ after.text)) = [t.text] := by
  have h := partsFrom_tree before t after []
  rw [List.append_nil] at h
  rw [parts, h, partsFrom, List.reverse_reverse, trim_tree]
  simp [t.text_ne_nil]

theorem parts_cons (before : Gap) (t : Tree) (after : Gap) (rest : Text) :
    parts (before.text ++ (t.text ++ after.text) ++ (unit ',' :: rest)) = t.text :: parts rest := by
  have hopen : unit ',' ≠ unit '\x7b' := by decide
  have hclose : unit ',' ≠ unit '\x7d' := by decide
  rw [parts, partsFrom_tree, partsFrom]
  simp [hopen, hclose, trim_tree, t.text_ne_nil, parts]

end Groups

section Segments
variable {tail : Text}

theorem segments_steps {g : Text} (hg : ∀ u ∈ g, isBlank u = true) (steps : List Step) (htail : unit ':' ∉ tail) :
    segments (g ++ (steps.flatMap Step.text ++ tail)) =
      steps.map (·.name.text) ++ if (trim tail).isEmpty then [] else [trim tail] := by
  have hcolons : ofString "::" = [unit ':', unit ':'] := by decide
  induction steps generalizing g with
  | nil =>
    have htrim := trim_blanks_append g tail [] hg nofun
    rw [List.append_nil] at htrim
    rw [List.flatMap_nil, List.nil_append, segments, hcolons,
      splitText_of_not_mem (by simp [colon_not_mem_of_blank hg, htail])]
    simp only [List.map_cons, List.map_nil, List.filter, htrim]
    cases (trim tail).isEmpty <;> rfl
  | cons s steps ih =>
    have hsplit : g ++ ((s :: steps).flatMap Step.text ++ tail) = g ++ (s.name.text ++ s.before.text) ++
        ([unit ':', unit ':'] ++ (s.after.text ++ (steps.flatMap Step.text ++ tail))) := by
      simp [Step.text, hcolons]
    have hpiece : unit ':' ∉ g ++ (s.name.text ++ s.before.text) := by
      simp [colon_not_mem_of_blank hg, s.name.colon_not_mem, colon_not_mem_of_blank s.before.blank]
    have htrim : trim (g ++ (s.name.text ++ s.before.text)) = s.name.text :=
      (trim_blanks_append _ _ _ hg s.before.blank).trans (trim_eq_self_iff.mpr s.name.trimmed)
    rw [hsplit, segments, hcolons, splitText_append hpiece, List.map_cons, htrim,
      List.filter_cons_of_pos (by simp [s.name.nonempty]), ← hcolons, ← segments, ih s.after.blank]
    rfl

/-- The names of a path, and what stands behind them. -/
theorem Lead.segments_append (l : Lead) (htail : unit ':' ∉ tail) :
    segments (l.body ++ tail) = l.names ++ if (trim tail).isEmpty then [] else [trim tail] := by
  rw [Lead.body, List.append_assoc]
  cases l.root with
  | none => exact segments_steps (fun _ hu => absurd hu List.not_mem_nil) l.steps htail
  | some g => exact segments_steps g.blank l.steps htail

end Segments

section Clause
variable {t x w : Text} {p : UInt16 → Bool}

def Renames (t x w : Text) : Prop :=
  ∃ b b', (b ≠ [] ∧ ∀ u ∈ b, isBlank u = true) ∧ (b' ≠ [] ∧ ∀ u ∈ b', isBlank u = true) ∧
    t = x ++ (b ++ ("as" ++ (b' ++ w)))

structure Seen (t x w : Text) : Prop where
  renames : Renames t x w
  oneLine : ∀ u ∈ x, isLineTerminator u = false
  nonempty : w ≠ []
  isWord : ∀ u ∈ w, Text.isWord u = true

theorem spells_clause :
    (.mark 1 (.lazyRun fun u => !isLineTerminator u) ++ .blanks1 ++ "as" ++ .blanks1 ++ .mark 2 .word : Pattern).Spells
      fun t m => ∃ x w, Seen t x w ∧ m = [(2, w), (1, x)] := by
  refine ((((((Pattern.spells_lazyRun _).mark 1).seq (Pattern.spells_plus _)).seq (Pattern.spells_lit _)).seq
    (Pattern.spells_plus _)).seq ((Pattern.spells_plus _).mark 2)).congr fun t m => ⟨?_, ?_⟩
  · rintro ⟨_, _, w, _, ⟨_, _, b', _, ⟨_, _, _, _, ⟨x, _, b, _, ⟨_, ⟨hx, rfl⟩, rfl⟩, ⟨hb, rfl⟩, rfl, rfl⟩, ⟨rfl, rfl⟩,
      rfl, rfl⟩, ⟨hb', rfl⟩, rfl, rfl⟩, ⟨_, ⟨⟨hne, hw⟩, rfl⟩, rfl⟩, rfl, rfl⟩
    exact ⟨x, w, ⟨⟨b, b', hb, hb', by simp⟩, fun u hu => by simpa using hx u hu, hne, hw⟩, rfl⟩
  · rintro ⟨x, w, ⟨⟨b, b', hb, hb', rfl⟩, hx, hne, hw⟩, rfl⟩
    have hx : ∀ u ∈ x, (!isLineTerminator u) = true := fun u hu => by simp [hx u hu]
    exact ⟨_, _, w, _, ⟨_, _, b', _, ⟨_, _, _, _, ⟨x, _, b, _, ⟨_, ⟨hx, rfl⟩, rfl⟩, ⟨hb, rfl⟩, rfl, rfl⟩, ⟨rfl, rfl⟩,
      rfl, rfl⟩, ⟨hb', rfl⟩, rfl, rfl⟩, ⟨_, ⟨⟨hne, hw⟩, rfl⟩, rfl⟩, by simp, rfl⟩

theorem starts_iff : aliasClause.starts t = true ↔ ∃ x w, Seen t x w := by
  rw [aliasClause, spells_clause.starts_atEnd_iff]
  exact ⟨fun ⟨_, x, w, h, _⟩ => ⟨x, w, h⟩, fun ⟨x, w, h⟩ => ⟨_, x, w, h, rfl⟩⟩

theorem seen_of_start {m : Pattern.Match} (h : aliasClause.start t = some m) : Seen t (m.mark 1) (m.mark 2) := by
  obtain ⟨x, w, hseen, hmarks⟩ := spells_clause.marks_of_start_atEnd h
  have hfirst : m.mark 1 = x := by rw [Pattern.Match.mark, Pattern.Match.mark?, hmarks]; rfl
  have hsecond : m.mark 2 = w := by rw [Pattern.Match.mark, Pattern.Match.mark?, hmarks]; rfl
  rwa [hfirst, hsecond]

/-- A last run of such units is cut off in one way only. -/
theorem append_inj_of_getLast {s s' w w' : Text} (h : s ++ w = s' ++ w') (hs : ∀ u ∈ s.getLast?, p u = false)
    (hs' : ∀ u ∈ s'.getLast?, p u = false) (hw : ∀ u ∈ w, p u = true) (hw' : ∀ u ∈ w', p u = true) :
    s = s' ∧ w = w' := by
  have hcut {s w : Text} (hs : ∀ u ∈ s.getLast?, p u = false) (hw : ∀ u ∈ w, p u = true) :
      (s ++ w).rdropWhile p = s := by
    rw [List.rdropWhile, List.reverse_append, List.dropWhile_append_of_pos fun u hu => hw u (List.mem_reverse.mp hu)]
    cases s using List.reverseRec with
    | nil => rfl
    | append_singleton s u => simp [hs u (by simp)]
  have heq : s = s' := by rw [← hcut hs hw, h, hcut hs' hw']
  subst heq
  exact ⟨rfl, List.append_cancel_left h⟩

theorem getLast_as (s : Text) : ∀ u ∈ (s ++ ofString "as").getLast?, isBlank u = false := by
  rw [List.getLast?_append_of_ne_nil _ (by decide)]
  rintro _ ⟨⟩
  decide

/-- Where a text ends with a renaming, it ends with no other. -/
theorem Renames.unique {x' w' : Text} (h : Renames t x w) (h' : Renames t x' w') (hw : ∀ u ∈ w, isBlank u = false)
    (hw' : ∀ u ∈ w', isBlank u = false) (hx : ∀ u ∈ x.getLast?, isBlank u = false) :
    w' = w ∧ ∃ d, (∀ u ∈ d, isBlank u = true) ∧ x' = x ++ d := by
  obtain ⟨b, c, hb, hc, rfl⟩ := h
  obtain ⟨b', c', hb', hc', h⟩ := h'
  have hblank {s c : Text} (hc : c ≠ [] ∧ ∀ u ∈ c, isBlank u = true) :
      ∀ u ∈ (s ++ c).getLast?, (!isBlank u) = false := by
    rw [List.getLast?_append_of_ne_nil _ hc.1]
    exact fun u hu => by simp [hc.2 u (List.mem_of_mem_getLast? hu)]
  simp only [← List.append_assoc] at h
  obtain ⟨hfront, hword⟩ := append_inj_of_getLast (p := fun u => !isBlank u) h (hblank hc) (hblank hc')
    (fun u hu => by simp [hw u hu]) (fun u hu => by simp [hw' u hu])
  obtain ⟨hpath, -⟩ := append_inj_of_getLast hfront (getLast_as _) (getLast_as _) hc.2 hc'.2
  refine ⟨hword.symm, ?_⟩
  rcases List.append_eq_append_iff.mp (List.append_cancel_right hpath) with ⟨d, rfl, rfl⟩ | ⟨d, rfl, rfl⟩
  · exact ⟨d, fun u hu => hb.2 u (List.mem_append_left _ hu), rfl⟩
  · cases d using List.reverseRec with
    | nil => exact ⟨[], nofun, by simp⟩
    | append_singleton d u =>
      have hu := hb'.2 u (by simp)
      rw [hx u (by simp)] at hu
      exact absurd hu Bool.false_ne_true

/-- The beginning of a path is blank, or it ends with a double colon and blanks. -/
theorem Lead.body_cases (l : Lead) : (∀ u ∈ l.body, isBlank u = true) ∨
    ∃ s g, (∀ u ∈ g, isBlank u = true) ∧ l.body = s ++ "::" ++ g := by
  rw [Lead.body]
  cases l.steps using List.reverseRec with
  | nil =>
    left
    cases l.root with
    | none => simp
    | some g => simpa using g.blank
  | append_singleton steps s =>
    right
    exact ⟨l.root.elim [] Gap.text ++ (steps.flatMap Step.text ++ (s.name.text ++ s.before.text)), s.after.text,
      s.after.blank, by simp [Step.text]⟩

theorem Lead.getLast_body (l : Lead) : ∀ u ∈ l.body.getLast?, (!isBlank u && u != unit ':') = false := by
  intro u hu
  rcases l.body_cases with hblank | ⟨s, g, hg, hbody⟩
  · simp [hblank u (List.mem_of_mem_getLast? hu)]
  · rw [hbody, List.append_assoc, List.getLast?_append_of_ne_nil _
      (List.append_ne_nil_of_left_ne_nil (by decide) g)] at hu
    rcases List.mem_append.mp (List.mem_of_mem_getLast? hu) with hu | hu
    · have hcolons : ofString "::" = [unit ':', unit ':'] := by decide
      obtain rfl : u = unit ':' := by simpa [hcolons] using hu
      decide
    · simp [hg u hu]

theorem not_seen_name (l : Lead) (n : Name) : ¬Seen (l.body ++ n.text) x w := by
  rintro ⟨⟨b, b', hb, hb', h⟩, -, -, hw⟩
  have hunit {u : UInt16} (hu : isWord u = true) : (!isBlank u && u != unit ':') = true := by
    have hcolon : u ≠ unit ':' := fun h => absurd (h ▸ hu) (by decide)
    simp [not_isBlank_of_isWord hu, hcolon]
  have hname : ∀ u ∈ n.text, (!isBlank u && u != unit ':') = true := fun u hu => by
    simp [n.not_isBlank hu, n.ne_mark hu (show unit ':' ∈ ofString ":,*\x7b\x7d" by decide)]
  have hgap : ∀ u ∈ (x ++ b ++ "as" ++ b').getLast?, (!isBlank u && u != unit ':') = false := by
    rw [List.getLast?_append_of_ne_nil _ hb'.1]
    exact fun u hu => by simp [hb'.2 u (List.mem_of_mem_getLast? hu)]
  simp only [← List.append_assoc] at h
  obtain ⟨hbody, -⟩ := append_inj_of_getLast (p := fun u => !isBlank u && u != unit ':') h l.getLast_body hgap hname
    fun u hu => hunit (hw u hu)
  -- What stands in front of the name would end with `as` and with a double colon.
  rcases l.body_cases with hblank | ⟨s, g, hg, hcolons⟩
  · exact absurd (hblank (unit 'a') (by rw [hbody]; simp [show ofString "as" = [unit 'a', unit 's'] by decide]))
      (by decide)
  · have hlast : ∀ u ∈ (s ++ ofString "::").getLast?, isBlank u = false := by
      rw [List.getLast?_append_of_ne_nil _ (by decide)]
      rintro _ ⟨⟩
      decide
    obtain ⟨heq, -⟩ := append_inj_of_getLast (hcolons.symm.trans hbody) hlast (getLast_as _) hg hb'.2
    have hlasts := congrArg List.getLast? heq
    rw [List.getLast?_append_of_ne_nil _ (by decide), List.getLast?_append_of_ne_nil _ (by decide)] at hlasts
    exact absurd hlasts (by decide)

theorem not_seen_all (l : Lead) : ¬Seen (l.body ++ "*") x w := by
  rintro ⟨⟨b, b', -, -, h⟩, -, hne, hw⟩
  have hlast := congrArg List.getLast? h
  simp only [← List.append_assoc] at hlast
  rw [List.getLast?_append_of_ne_nil _ (by decide), List.getLast?_append_of_ne_nil _ hne] at hlast
  have hstar : unit '*' ∈ w := List.mem_of_getLast? hlast.symm
  exact absurd (hw _ hstar) (by decide)

end Clause

section Leaves
variable {before : List Text}

theorem Ending.colon_not_mem (e : Ending) : unit ':' ∉ e.text := by
  have has : unit ':' ∉ ofString "as" := by decide
  cases e with
  | name n => exact n.colon_not_mem
  | renamed n r =>
    simp [Ending.text, has, Name.colon_not_mem, colon_not_mem_of_blank r.before.blank,
      colon_not_mem_of_blank r.after.blank]
  | all => decide

/-- The names of a path that is read to its end. -/
theorem segments_path (l : Lead) (e : Ending) : segments (l.body ++ e.text) = l.names ++ [e.text] := by
  have htrim : trim e.text = e.text := trim_eq_self_iff.mpr e.trimmed
  rw [l.segments_append e.colon_not_mem, htrim, if_neg (by simpa using e.text_ne_nil)]

theorem Name.text_ne_star (n : Name) : n.text ≠ "*" := fun h =>
  n.ne_mark (u := unit '*') (h ▸ by decide) (by decide) rfl

theorem Ending.text_ne_star {e : Ending} (h : e ≠ .all) : e.text ≠ "*" := by
  cases e with
  | name n => exact n.text_ne_star
  | renamed n r =>
    intro h
    obtain ⟨u, t, hn⟩ := List.exists_cons_of_ne_nil n.nonempty
    rw [Ending.text, hn, show ofString "*" = [unit '*'] by decide, List.cons_append] at h
    exact n.ne_mark (by rw [hn]; exact List.mem_cons_self) (by decide) (List.cons.inj h).1
  | all => exact absurd rfl h

theorem leaf_plain (l : Lead) {e : Ending} (hstart : aliasClause.start (l.body ++ e.text) = none) (he : e ≠ .all) :
    leaf before (l.body ++ e.text) = [⟨before ++ l.names ++ [e.text], none, false⟩] := by
  simp [leaf, hstart, segments_path, Ending.text_ne_star he]

theorem renames_text (l : Lead) (n : Name) (r : Rename) :
    Renames (l.body ++ Ending.text (.renamed n r)) (l.body ++ n.text) r.name.text :=
  ⟨r.before.text, r.after.text, ⟨r.before_ne_nil, r.before.blank⟩, ⟨r.after_ne_nil, r.after.blank⟩,
    by simp [Ending.text]⟩

theorem start_renamed {l : Lead} {n : Name} {r : Rename} {m : Pattern.Match}
    (h : aliasClause.start (l.body ++ Ending.text (.renamed n r)) = some m) :
    Way.isSeen ⟨before, l, .renamed n r⟩ = true ∧ m.mark 2 = r.name.text ∧
    segments (m.mark 1) = l.names ++ [n.text] := by
  have hseen := seen_of_start h
  have hlast : ∀ u ∈ (l.body ++ n.text).getLast?, isBlank u = false := by
    rw [List.getLast?_append_of_ne_nil _ n.nonempty]
    exact n.trimmed.stop
  obtain ⟨hname, d, hd, hpath⟩ := (renames_text l n r).unique hseen.renames (fun _ => r.name.not_isBlank)
    (fun u hu => not_isBlank_of_isWord (hseen.isWord u hu)) hlast
  have hword := hseen.isWord
  have hline := hseen.oneLine
  rw [hname] at hword
  rw [hpath] at hline
  refine ⟨?_, hname, ?_⟩
  · simp only [Way.isSeen, Bool.and_eq_true, Bool.not_eq_true', List.any_eq_false, List.all_eq_true, Bool.not_eq_true]
    exact ⟨hword, fun u hu => hline u (by simp [hu])⟩
  · have hcolon : unit ':' ∉ n.text ++ d := by simp [n.colon_not_mem, colon_not_mem_of_blank hd]
    have htrim : trim (n.text ++ d) = n.text :=
      (trim_blanks_append [] n.text d nofun hd).trans (trim_eq_self_iff.mpr n.trimmed)
    rw [hpath, List.append_assoc, l.segments_append hcolon, htrim, if_neg (by simpa using n.nonempty)]

theorem starts_renamed {l : Lead} {n : Name} {r : Rename} (h : Way.isSeen ⟨before, l, .renamed n r⟩ = true) :
    aliasClause.starts (l.body ++ Ending.text (.renamed n r)) = true := by
  simp only [Way.isSeen, Bool.and_eq_true, Bool.not_eq_true', List.any_eq_false, List.all_eq_true,
    Bool.not_eq_true] at h
  refine starts_iff.mpr ⟨l.body ++ n.text, r.name.text, renames_text l n r,
    List.forall_mem_append.mpr ⟨h.2, fun u hu => ?_⟩,
    r.name.nonempty, h.1⟩
  exact Bool.eq_false_iff.mpr fun hline => by simpa [isBlank_of_isLineTerminator hline] using n.not_isBlank hu

/-- Of a path without braces the leaf is read that its way tells. -/
theorem leaf_eq (before : List Text) (l : Lead) (e : Ending) :
    leaf before (l.body ++ e.text) = [Way.read ⟨before, l, e⟩] := by
  cases e with
  | name n =>
    have hstart : aliasClause.start (l.body ++ n.text) = none :=
      Option.eq_none_iff_forall_not_mem.mpr fun m hm => not_seen_name l n (seen_of_start hm)
    exact leaf_plain l hstart (by simp)
  | renamed n r =>
    cases hstart : aliasClause.start (l.body ++ Ending.text (.renamed n r)) with
    | none =>
      have hseen : ¬Way.isSeen ⟨before, l, .renamed n r⟩ = true := fun h => by
        have hstarts := starts_renamed h
        rw [Pattern.starts, hstart] at hstarts
        exact Bool.false_ne_true hstarts
      rw [leaf_plain l hstart (by simp), Way.read, if_neg hseen]
      rfl
    | some m =>
      obtain ⟨hseen, hname, hpath⟩ := start_renamed hstart
      rw [Way.read, if_pos hseen]
      simp [leaf, hstart, hname, hpath, Way.leaf, Way.names, n.text_ne_star]
  | all =>
    have hstart : aliasClause.start (l.body ++ Ending.text .all) = none :=
      Option.eq_none_iff_forall_not_mem.mpr fun m hm => not_seen_all l (seen_of_start hm)
    rw [leaf, hstart, Option.map_none, Option.getD_none, segments_path]
    simp [Way.read, Way.isSeen, Way.leaf, Way.names, Ending.text]

theorem leavesFrom_plain {t t' : Text} (ht : dropHead "::" (trim t) = t') (hplain : ∀ u ∈ t', isPlain u = true)
    (fuel : Nat) : leavesFrom (fuel + 1) before t = leaf before t' := by
  have hopen : unit '\x7b' ∉ t' := fun hm => absurd (hplain _ hm) (by decide)
  rw [leavesFrom, ht, find?_of_not_mem hopen]

theorem leavesFrom_braced {t t' inner : Text}
    (ht : dropHead "::" (trim t) = t' ++ (unit '\x7b' :: (inner ++ [unit '\x7d'])))
    (hplain : ∀ u ∈ t', isPlain u = true) (fuel : Nat) :
    leavesFrom (fuel + 1) before t = (parts inner).flatMap (leavesFrom fuel (before ++ segments t')) := by
  have hopen : unit '\x7b' ∉ t' := fun hm => absurd (hplain _ hm) (by decide)
  have hlast := findLast?_append (u := unit '\x7d') (t' ++ (unit '\x7b' :: inner))
  rw [List.append_assoc, List.cons_append] at hlast
  have hinner : ((t' ++ (unit '\x7b' :: (inner ++ [unit '\x7d']))).take (t' ++ (unit '\x7b' :: inner)).length).drop
      (t'.length + 1) = inner := by
    rw [← List.cons_append, ← List.append_assoc, List.take_left, List.drop_append]
    simp
  rw [leavesFrom, ht, find?_append hopen]
  dsimp only
  rw [hlast]
  dsimp only
  rw [hinner, List.take_left]

mutual

/-- What is read of a tree. -/
theorem Tree.leavesFrom_text :
    ∀ (t : Tree) (before : List Text) {s : Text} {fuel : Nat}, trim s = t.text → t.text.length < fuel →
    leavesFrom fuel before s = (t.ways before).map Way.read
  | .leaf lead ending, before, s, fuel + 1, hs, _ => by
    have hhead : ∀ u ∈ ending.text.head?, u ≠ unit ':' := fun u hu h =>
      ending.colon_not_mem (h ▸ List.mem_of_mem_head? hu)
    have hdrop : dropHead "::" (trim s) = lead.body ++ ending.text := by rw [hs, Tree.text, lead.dropHead_append hhead]
    rw [leavesFrom_plain hdrop (List.forall_mem_append.mpr ⟨lead.isPlain_body, ending.isPlain⟩), leaf_eq, Tree.ways]
    rfl
  | .group lead trees, before, s, fuel + 1, hs, hfuel => by
    have hhead : ∀ u ∈ (unit '\x7b' :: (trees.text ++ [unit '\x7d'])).head?, u ≠ unit ':' := by
      rintro _ ⟨⟩
      decide
    have hdrop : dropHead "::" (trim s) = lead.body ++ (unit '\x7b' :: (trees.text ++ [unit '\x7d'])) := by
      rw [hs, Tree.text, lead.dropHead_append hhead]
    have hnames : segments lead.body = lead.names := by
      have hcolon : unit ':' ∉ ([] : Text) := List.not_mem_nil
      have h := lead.segments_append hcolon
      rw [List.append_nil] at h
      exact h.trans (List.append_nil _)
    have hless : trees.text.length < fuel := by
      simp only [Tree.text, List.length_append, List.length_cons] at hfuel
      omega
    rw [leavesFrom_braced hdrop lead.isPlain_body, hnames, trees.leavesFrom_parts _ hless, Tree.ways]

theorem Trees.leavesFrom_parts : ∀ (ts : Trees) (before : List Text) {fuel : Nat}, ts.text.length < fuel →
    (parts ts.text).flatMap (leavesFrom fuel before) = (ts.ways before).map Way.read
  | .none gap, before, _, _ => by
    rw [Trees.text, parts_none, Trees.ways]
    rfl
  | .last gap t gap', before, fuel, hfuel => by
    have hless : t.text.length < fuel := by
      simp only [Trees.text, List.length_append] at hfuel
      omega
    rw [Trees.text, parts_last, List.flatMap_singleton, t.leavesFrom_text before (trim_eq_self_iff.mpr t.trimmed) hless,
      Trees.ways]
  | .cons gap t gap' rest, before, fuel, hfuel => by
    have hless : t.text.length < fuel ∧ rest.text.length < fuel := by
      simp only [Trees.text, List.length_append, List.length_cons] at hfuel
      omega
    rw [Trees.text, parts_cons, List.flatMap_cons, t.leavesFrom_text before (trim_eq_self_iff.mpr t.trimmed) hless.1,
      rest.leavesFrom_parts before hless.2, Trees.ways, List.map_append]

end

end Leaves

/-- A use tree expands to the leaves on its ways, in the order of its text; they are the leaves that are written
just if every renaming is seen. -/
theorem leaves_text (t : Tree) (g g' : Gap) :
    leaves (g.text ++ (t.text ++ g'.text)) = (t.ways []).map Way.read ∧
      (leaves (g.text ++ (t.text ++ g'.text)) = (t.ways []).map Way.leaf ↔ ∀ w ∈ t.ways [], w.isSeen = true) := by
  have hlength : t.text.length < (g.text ++ (t.text ++ g'.text)).length + 1 := by
    simp only [List.length_append]
    omega
  have hleaves := t.leavesFrom_text [] (trim_tree g t g') hlength
  refine ⟨hleaves, ?_⟩
  rw [leaves, hleaves, List.map_inj_left]
  exact forall₂_congr fun w _ => w.read_eq_leaf_iff

def Gap.empty : Gap := ⟨[], nofun⟩

def Gap.space : Gap := ⟨" ", List.all_eq_true.mp (by decide)⟩

def Name.ofText (t : Text) (hne : t ≠ []) (hplain : t.all isNameUnit = true) : Name :=
  ⟨t, hne, List.all_eq_true.mp hplain⟩

def rawRename : Tree :=
  .leaf { root := none, steps := [⟨.ofText "a" (by decide) (by decide), .empty, .empty⟩] }
    (.renamed (.ofText "b" (by decide) (by decide))
      ⟨.space, .space, by decide, by decide, .ofText "r#type" (by decide) (by decide)⟩)

/-- A new name that is no word is taken into the path. -/
theorem leaves_rawRename : rawRename.text = "a::b as r#type" ∧
    leaves rawRename.text = [⟨["a", "b as r#type"], none, false⟩] ∧
    (rawRename.ways []).map Way.leaf = [⟨["a", "b"], some "r#type", false⟩] := by
  decide

end UseTree
end AnnotationIndex
