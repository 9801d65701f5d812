import AnnotationIndex.Proofs.AnnotationLines
import Mathlib.Data.List.Flatten

/-!
The order of lines. The lines of a text's blocks, the entries of a block and the annotations that they state follow
each other in the order of the text, and a line gives at most one of each. So the lines at which annotations start
increase strictly.
-/
namespace AnnotationIndex
open Text

theorem CommentLine.lines_classifyFrom (s : CommentSyntax) (open? : Option BlockDelimiter) (n : Nat) (ls : List Text) :
    (classifyFrom s open? n ls).map (·.line) = List.range' n ls.length := by
  induction ls generalizing open? n with
  | nil => cases open? <;> rfl
  | cons raw rest ih =>
    cases open? with
    | none => exact congrArg (n :: ·) (ih _ (n + 1))
    | some d => exact congrArg (n :: ·) (ih _ (n + 1))

namespace AnnotationBlock

def lineNumbers (b : AnnotationBlock) : List Nat := b.lines.map (·.line)

/-- The lines of the open block and of those after it. -/
theorem lineNumbers_scanFrom (open? : Option (BlockLine × List BlockLine)) (cs : List CommentLine) :
    ((scanFrom open? cs).flatMap lineNumbers).Sublist
      ((closed open?).flatMap lineNumbers ++ cs.map (·.line)) := by
  induction cs generalizing open? with
  | nil => cases open? <;> simp [scanFrom]
  | cons c rest ih =>
    cases open? with
    | none =>
      have hrest := ih ((BlockLine.directive? c).map fun l => (l, []))
      rw [scanFrom]
      refine hrest.trans ?_
      cases hd : BlockLine.directive? c with
      | none => exact List.sublist_cons_self _ _
      | some l =>
        rw [List.map_cons, ← line_directive? hd]
        exact List.Sublist.refl _
    | some p =>
      obtain ⟨first, others⟩ := p
      rw [scanFrom]
      split
      · next l hl =>
        have hlines : (closed (some (first, l :: others))).flatMap lineNumbers ++ rest.map (·.line) =
            (closed (some (first, others))).flatMap lineNumbers ++ (c :: rest).map (·.line) := by
          simp [closed, lineNumbers, lines, line_continues? hl]
        exact hlines ▸ ih (some (first, l :: others))
      · have hrest :=
          ((ih none).trans (List.sublist_cons_self c.line _)).append_left (lineNumbers ⟨first, others.reverse⟩)
        simpa [closed] using hrest

/-- The lines of the blocks of a text are lines of the text in their order. -/
theorem lineNumbers_scan (s : CommentSyntax) (t : Text) :
    ((scan s t).flatMap lineNumbers).Sublist (List.range' 1 (lineCount t)) := by
  have hscan := lineNumbers_scanFrom none (CommentLine.classify s t)
  rwa [closed, List.flatMap_nil, List.nil_append, CommentLine.classify, CommentLine.lines_classifyFrom] at hscan

end AnnotationBlock

def AnnotationRecord.starts (as : List AnnotationRecord) : List Int := as.map fun a => a.lineSpan.start

namespace AnnotatedBlock
open AnnotationRecord (starts)
variable {rules : AnnotationRules} {file : Text}

/-- An entry stands at the line of its directive. -/
theorem lines_entriesFrom (last : Option Entry) (ls : List BlockLine) :
    ((entriesFrom last ls).1.map (·.line)).Sublist (last.toList.map (·.line) ++ ls.map (·.line)) := by
  induction ls generalizing last with
  | nil => simp [entriesFrom]
  | cons l rest ih =>
    rw [entriesFrom]
    split
    · split
      · next d _ =>
        rw [List.map_append, List.map_cons]
        exact (ih (some ⟨d, l.line, l.line⟩)).append_left _
      · rw [List.map_append, List.map_cons]
        exact ((ih none).trans (List.sublist_cons_self l.line _)).append_left _
    · have hline : (last.map (·.extend l)).toList.map (·.line) = last.toList.map (·.line) := by cases last <;> rfl
      refine (ih (last.map (·.extend l))).trans ?_
      rw [hline, List.map_cons]
      exact (List.sublist_cons_self l.line _).append_left _

namespace Progress

theorem starts_endGroup (p : Progress) : Yields (fun _ => True)
    (fun q => starts (q.settled ++ q.pending) = starts (p.settled ++ p.pending)) (p.endGroup rules file) := by
  unfold endGroup
  split
  · exact rfl
  · split
    · exact rfl
    · split
      · exact trivial
      · simp only [Yields, starts, List.append_nil, List.map_append, List.map_map, Function.comp_def]

theorem starts_step (p : Progress) (e : Entry) : Yields (fun _ => True)
    (fun q => (starts (q.settled ++ q.pending)).Sublist (starts (p.settled ++ p.pending) ++ [(e.line : Int)]))
    (p.step rules file e) := by
  unfold step
  split
  · exact List.sublist_append_left _ _
  · refine (starts_endGroup p).bind fun q hq => ?_
    split
    · next a ha =>
      obtain ⟨rule, payload, _, _, rfl⟩ := annotation_ok ha
      rw [Yields, ← List.append_assoc, starts, List.map_append, ← starts, hq]
      exact List.Sublist.refl _
    · cases reject rules file e.span _ with
      | error => exact trivial
      | ok d => exact hq ▸ List.sublist_append_left _ _

theorem starts_foldlM (p : Progress) (es : List Entry) : Yields (fun _ => True)
    (fun q => (starts (q.settled ++ q.pending)).Sublist
      (starts (p.settled ++ p.pending) ++ es.map fun e => (e.line : Int))) (es.foldlM (step rules file) p) := by
  induction es generalizing p with
  | nil => exact List.sublist_append_left _ _
  | cons e rest ih =>
    rw [List.foldlM_cons]
    refine (starts_step p e).bind fun q hq => ?_
    have hrest := ih q
    cases hfold : rest.foldlM (step rules file) q with
    | error => exact trivial
    | ok q' =>
      rw [hfold] at hrest
      refine List.Sublist.trans hrest ?_
      rw [List.map_cons, List.append_cons]
      exact hq.append_right _

end Progress

/-- The annotations of a block start at lines of the block in their order. -/
theorem starts_ofBlock {b : AnnotationBlock} {r : AnnotatedBlock × List Diagnostic} (h : ofBlock rules file b = .ok r) :
    (starts r.1.annotations).Sublist (b.lineNumbers.map (↑)) := by
  have hentries : ((entries b).1.map fun e => (e.line : Int)).Sublist (b.lineNumbers.map (↑)) := by
    have h := (lines_entriesFrom none b.lines).map (fun n : Nat => (n : Int))
    rwa [List.map_map] at h
  have hstarts : Yields (fun _ => True) (fun r => (starts r.1.annotations).Sublist (b.lineNumbers.map (↑)))
      (ofBlock rules file b) := by
    unfold ofBlock
    have hreports (x : Except AnnotationRefusal (List Diagnostic)) : Yields (fun _ => True) (fun _ => True) x := by
      cases x <;> exact trivial
    refine (hreports _).bind fun reports _ => ?_
    refine (Progress.starts_foldlM _ _).bind fun p hp => ?_
    refine (Progress.starts_endGroup p).bind fun q hq => ?_
    rw [Yields, hq]
    exact List.Sublist.trans hp hentries
  rw [h] at hstarts
  exact hstarts

end AnnotatedBlock

theorem sublist_flatMap_of_forall₂ {α β γ : Type} {f : α → List γ} {g : β → List γ} {as : List α} {bs : List β}
    (h : List.Forall₂ (fun a b => (g b).Sublist (f a)) as bs) : (bs.flatMap g).Sublist (as.flatMap f) := by
  induction h with
  | nil => exact List.Sublist.refl _
  | cons hab _ ih =>
    rw [List.flatMap_cons, List.flatMap_cons]
    exact hab.append ih

namespace Annotations
variable {rules : AnnotationRules} {s : CommentSyntax} {file t : Text} {as : Annotations}

theorem starts_ofText (h : ofText rules s file t = .ok as) :
    (AnnotationRecord.starts (as.blocks.flatMap (·.annotations))).Sublist ((List.range' 1 (lineCount t)).map (↑)) := by
  rw [ofText, bind_eq_ok] at h
  obtain ⟨parsed, hparsed, h⟩ := h
  obtain rfl := Except.ok.inj h
  have hblocks := sublist_flatMap_of_forall₂
    ((forall₂_of_mapM_ok hparsed).imp fun _ _ => AnnotatedBlock.starts_ofBlock)
  have hkept := (List.filter_sublist (l := parsed.map (·.1)) (p := fun b => !b.annotations.isEmpty)).flatMap
    fun b : AnnotatedBlock => AnnotationRecord.starts b.annotations
  rw [List.flatMap_map] at hkept
  rw [AnnotationRecord.starts, List.map_flatMap]
  refine (hkept.trans hblocks).trans ?_
  rw [← List.map_flatMap]
  exact (AnnotationBlock.lineNumbers_scan s t).map _

end Annotations
end AnnotationIndex
