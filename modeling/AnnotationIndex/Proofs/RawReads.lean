import AnnotationIndex.Proofs.MaskedLines

/-!
What the extractors of lines read in lines as they are written. Of each line an extractor reads some marks of its
patterns and nothing else, so it reads the same in files whose lines have the same marks.
-/
namespace AnnotationIndex
open Text

theorem forall₂_iff_map_eq {α β γ : Type} {f : α → γ} {g : β → γ} {as : List α} {bs : List β} :
    List.Forall₂ (fun a b => f a = g b) as bs ↔ as.map f = bs.map g := by
  rw [← List.forall₂_eq_eq_eq, List.forall₂_map_left_iff, List.forall₂_map_right_iff]

namespace CodeLine
variable {sources sources' : List Text}

def Alike {β : Type} (read : Text → β) (l l' : CodeLine) : Prop := l.bare = l'.bare ∧ read l.source = read l'.source

theorem leadingAt_congr {p : Text → Bool}
    (h : sources.map (fun t => p (trim t)) = sources'.map fun t => p (trim t)) (line : Int) :
    leadingAt p sources line = leadingAt p sources' line := by
  have hflags (sources : List Text) : leadingAt p sources line =
      (((sources.map fun t => p (trim t)).take (line.toNat - 1)).reverse.takeWhile id).length := by
    rw [← List.map_take, ← List.map_reverse, List.takeWhile_map, List.length_map]
    rfl
  rw [hflags, hflags, h]

theorem sourceAt_congr {β : Type} {f : Text → β} (h : sources.map f = sources'.map f) (line : Int) :
    f (sourceAt sources line) = f (sourceAt sources' line) := by
  have hget (sources : List Text) : f (sourceAt sources line) = (sources.map f)[line.toNat - 1]?.getD (f []) := by
    rw [sourceAt, List.getD_eq_getElem?_getD, List.getElem?_map]
    cases sources[line.toNat - 1]? <;> rfl
  rw [hget, hget, h]

end CodeLine

namespace Go

def specMarks (m : Pattern.Match) : Option Text × Text := (m.mark? 1, m.mark 2)

/-- What is read of a line as it is written: an import of one spec, the start of a group, a spec, the end of a group. -/
structure Reading where
  single : Option (Option (Option Text × Text))
  opens : Bool
  spec : Option (Option Text × Text)
  closes : Bool
  deriving DecidableEq

def single? (t : Text) : Option Pattern.Match := if groupedImport.starts t then none else singleImport.start t

def reading (source : Text) : Reading where
  single := (single? (trim source)).map fun m => (importSpec.start (trim (m.mark 1))).map specMarks
  opens := importGroup.starts (trim source)
  spec := (importSpec.start (trim source)).map specMarks
  closes := startsWith (trim source) ")"

theorem importStatement_congr {m m' : Pattern.Match} (h : specMarks m = specMarks m') (line : Nat) :
    importStatement line m = importStatement line m' := by
  obtain ⟨hname, hspecifier⟩ := Prod.mk.inj h
  rw [importStatement, importStatement, hname, hspecifier]

theorem map_importStatement_congr {found found' : Option Pattern.Match} (h : found.map specMarks = found'.map specMarks)
    (line : Nat) : found.map (importStatement line) = found'.map (importStatement line) := by
  cases found with
  | none =>
    rw [Option.map_none, eq_comm, Option.map_eq_none_iff] at h
    rw [h]
  | some m =>
    obtain ⟨m', rfl, hmarks⟩ := Option.map_eq_some_iff.mp h.symm
    rw [Option.map_some, Option.map_some, importStatement_congr hmarks]

theorem importGroupFrom_congr {ls ls' : List CodeLine} (h : List.Forall₂ (CodeLine.Alike reading) ls ls') (line : Nat) :
    importGroupFrom line ls = importGroupFrom line ls' := by
  induction h generalizing line with
  | nil => rfl
  | @cons l l' _ _ hl _ ih =>
    have hcloses : startsWith (trim l.source) ")" = startsWith (trim l'.source) ")" := congrArg Reading.closes hl.2
    have hspec := map_importStatement_congr (congrArg Reading.spec hl.2) line
    rw [importGroupFrom, importGroupFrom]
    dsimp only
    rw [hcloses, hspec, ih]

theorem importsFrom_congr {ls ls' : List CodeLine} (h : List.Forall₂ (CodeLine.Alike reading) ls ls') (line : Nat) :
    importsFrom line ls = importsFrom line ls' := by
  induction hn : ls.length using Nat.strong_induction_on generalizing ls ls' line with
  | _ n ih =>
  cases h with
  | nil => rfl
  | @cons l l' rest rest' hl hrest =>
    obtain ⟨hbare, hreading⟩ := hl
    have hbefore : l.before = l'.before := congrArg (·.before) hbare
    have hstep (k line : Nat) := ih (rest.drop k).length (by simp at hn ⊢; omega) (List.forall₂_drop k hrest) line rfl
    have hnext := hstep 0
    have hopens : importGroup.starts (trim l.source) = importGroup.starts (trim l'.source) :=
      congrArg Reading.opens hreading
    have hsingle : (single? (trim l.source)).map (fun m => (importSpec.start (trim (m.mark 1))).map specMarks) =
        (single? (trim l'.source)).map fun m => (importSpec.start (trim (m.mark 1))).map specMarks :=
      congrArg Reading.single hreading
    simp only [List.drop_zero] at hnext
    rw [importsFrom, importsFrom, hbefore, hnext, importGroupFrom_congr hrest, hopens]
    simp only [hstep]
    rw [← single?, ← single?]
    cases hm : single? (trim l.source) with
    | none =>
      rw [hm, Option.map_none, eq_comm, Option.map_eq_none_iff] at hsingle
      rw [hsingle]
    | some m =>
      rw [hm, Option.map_some, eq_comm] at hsingle
      obtain ⟨m', hm', hmarks⟩ := Option.map_eq_some_iff.mp hsingle
      rw [hm']
      dsimp only
      rw [map_importStatement_congr hmarks]

end Go

namespace Rust

def reading (source : Text) : Bool := isAttribute (trim source)

end Rust

namespace Java

def reading (source : Text) : Bool × Bool :=
  (annotationLine.starts (trim source), (wholeWord "static").occursIn (headerOf source))

theorem exportRow?_written {sources sources' : List Text} (h : sources.map reading = sources'.map reading)
    (d : Declaration) : exportRow? (written sources d) = exportRow? (written sources' d) := by
  have hstatic := congrArg Prod.snd (CodeLine.sourceAt_congr h d.lineSpan.start)
  dsimp only [reading] at hstatic
  simp only [exportRow?, written, Option.getD_some, hstatic]
  rfl

end Java

namespace Python
open Pattern

def namesIn (source : Text) : List Text := (quotedName.all source).map (·.mark 1)

section Quotes

/-- A run gives nothing back if the rest of the pattern starts with no unit that it takes. -/
theorem runFrom_eq {p : UInt16 → Bool} {k : Cursor → Found}
    (hk : ∀ before u rest, p u = true → k ⟨before, u :: rest⟩ = none) (before rest : Text) :
    runFrom p k before rest = k ⟨(rest.takeWhile p).reverse ++ before, rest.dropWhile p⟩ := by
  induction rest generalizing before with
  | nil => rfl
  | cons u rest ih =>
    rw [runFrom]
    split
    · next hu => simp [hk _ _ _ hu, ih, hu]
    · next hu => simp [hu]

def isQuote (u : UInt16) : Bool := oneOf "\"'" u

theorem not_isQuote {u : UInt16} (h : isWord u = true) : isQuote u = false := by
  cases hu : isQuote u with
  | false => rfl
  | true =>
    have hquotes : ofString "\"'" = [unit '"', unit '\''] := by decide
    rw [isQuote, oneOf, hquotes, List.elem_eq_mem, decide_eq_true_eq, List.mem_pair] at hu
    obtain rfl | rfl := hu <;> exact absurd h (by decide)

def quoted? : Text → Option Text
  | q :: u :: rest =>
    if isQuote q && isWordStart u && ((rest.dropWhile isWord).head?.map isQuote).getD false then
      some (u :: rest.takeWhile isWord)
    else none
  | _ => none

theorem matchAt_quotedName (before t : Text) :
    (quotedName.matchAt before t).map (fun m => (m.mark 1, m.text.length)) =
      (quoted? t).map fun n => (n, n.length + 2) := by
  have hquote : oneOf "\"'" = isQuote := rfl
  match t with
  | [] => rfl
  | [q] =>
    simp only [matchAt, quotedName, HAppend.hAppend, Append.append, matchFrom, name, quoted?]
    split <;> rfl
  | q :: u :: rest =>
    simp only [matchAt, quotedName, HAppend.hAppend, Append.append, matchFrom, name, quoted?, hquote]
    rw [runFrom_eq fun before v rest hv => if_neg (Bool.not_eq_true _ ▸ not_isQuote hv)]
    have hsplit : rest.takeWhile isWord ++ rest.dropWhile isWord = rest := List.takeWhile_append_dropWhile
    generalize rest.takeWhile isWord = w at hsplit ⊢
    generalize rest.dropWhile isWord = d at hsplit ⊢
    subst hsplit
    cases d with
    | nil => simp
    | cons v tail =>
      have hmark : (u :: (w ++ v :: tail)).take (w.length + (tail.length + 1) - tail.length) = u :: w := by
        rw [show w.length + (tail.length + 1) - tail.length = (u :: w).length by rw [List.length_cons]; omega]
        exact List.take_left
      have hlength : w.length + (tail.length + 1) + 1 + 1 - tail.length = w.length + 1 + 2 := by omega
      cases hq : isQuote q <;> cases hu : isWordStart u <;> cases hv : isQuote v <;>
        simp [hv, hmark, hlength, Match.mark, Match.mark?]

/-- The names in quotes from a place on; `skip` counts the units of the last one still to be passed over. -/
def quotedFrom : Nat → Text → List Text
  | _, [] => []
  | skip + 1, _ :: rest => quotedFrom skip rest
  | 0, u :: rest =>
    match quoted? (u :: rest) with
    | some n => n :: quotedFrom (n.length + 1) rest
    | none => quotedFrom 0 rest

theorem allFrom_quotedName (skip : Nat) (before t : Text) :
    (quotedName.allFrom skip before t).map (·.mark 1) = quotedFrom skip t := by
  induction t generalizing skip before with
  | nil => cases skip <;> rfl
  | cons u rest ih =>
    cases skip with
    | succ skip => exact ih skip (u :: before)
    | zero =>
      have hmatch := matchAt_quotedName before (u :: rest)
      rw [allFrom, quotedFrom]
      cases hq : quoted? (u :: rest) with
      | none =>
        rw [hq, Option.map_none, Option.map_eq_none_iff] at hmatch
        rw [hmatch]
        exact ih 0 (u :: before)
      | some n =>
        rw [hq, Option.map_some] at hmatch
        obtain ⟨m, hm, hn⟩ := Option.map_eq_some_iff.mp hmatch
        obtain ⟨hmark, hlength⟩ := Prod.mk.inj hn
        rw [hm]
        dsimp only
        rw [List.map_cons, hmark, hlength, ih]
        rfl

/-- A name in quotes ends before a space. -/
theorem quoted?_append (u : UInt16) (x y : Text) : quoted? (u :: x ++ 0x20 :: y) = quoted? (u :: x) := by
  have hword : isWord 0x20 = false := by decide
  have htake (x : Text) : (x ++ 0x20 :: y).takeWhile isWord = x.takeWhile isWord := by
    induction x with
    | nil => simp [hword]
    | cons v x ih => rw [List.cons_append, List.takeWhile_cons, List.takeWhile_cons, ih]
  have hclosed (x : Text) : (((x ++ 0x20 :: y).dropWhile isWord).head?.map isQuote).getD false =
      ((x.dropWhile isWord).head?.map isQuote).getD false := by
    induction x with
    | nil =>
      have hquote : isQuote 0x20 = false := by decide
      simp [hword, hquote]
    | cons v x ih => cases hv : isWord v <;> simp [hv, ih]
  cases x with
  | nil =>
    have hstart : isWordStart 0x20 = false := by decide
    simp [quoted?, hstart]
  | cons v x => simp only [List.cons_append, quoted?, htake, hclosed]

theorem length_le_of_quoted? {u : UInt16} {x n : Text} (h : quoted? (u :: x) = some n) : n.length + 1 ≤ x.length := by
  cases x with
  | nil => cases h
  | cons v x =>
    rw [quoted?] at h
    split at h
    · next hname =>
      obtain rfl := Option.some.inj h
      have hsplit := congrArg List.length (List.takeWhile_append_dropWhile (p := isWord) (l := x))
      cases hd : x.dropWhile isWord with
      | nil => simp [hd] at hname
      | cons w tail =>
        rw [hd, List.length_append, List.length_cons] at hsplit
        rw [List.length_cons, List.length_cons]
        omega
    · cases h

theorem quotedFrom_append (skip : Nat) (x y : Text) (h : skip ≤ x.length) :
    quotedFrom skip (x ++ 0x20 :: y) = quotedFrom skip x ++ quotedFrom 0 y := by
  induction x generalizing skip with
  | nil =>
    obtain rfl : skip = 0 := Nat.le_zero.mp h
    have hspace : quoted? (0x20 :: y) = none := by
      have hquote : isQuote 0x20 = false := by decide
      cases y <;> simp [quoted?, hquote]
    have hskip : quotedFrom 0 (0x20 :: y) = quotedFrom 0 y := by rw [quotedFrom, hspace]
    exact hskip
  | cons u x ih =>
    cases skip with
    | succ skip => exact ih skip (Nat.le_of_succ_le_succ h)
    | zero =>
      rw [List.cons_append, quotedFrom, quotedFrom, ← List.cons_append, quoted?_append]
      cases hq : quoted? (u :: x) with
      | none => exact ih 0 (Nat.zero_le _)
      | some n =>
        dsimp only
        rw [ih _ (length_le_of_quoted? hq), List.cons_append]

theorem namesIn_eq (source : Text) : namesIn source = quotedFrom 0 source := allFrom_quotedName 0 [] source

/-- The names that are quoted in lines are those that are quoted in each. -/
theorem namesIn_join (ls : List Text) : namesIn (join " " ls) = ls.flatMap namesIn := by
  induction ls with
  | nil => rfl
  | cons t rest ih =>
    cases rest with
    | nil => rw [join, List.flatMap_singleton]
    | cons t' rest =>
      have hspace : ofString " " = [0x20] := by decide
      have hjoin : join " " (t :: t' :: rest) = t ++ 0x20 :: join " " (t' :: rest) := by
        rw [join, List.append_assoc]
        exact congrArg (fun s => t ++ (s ++ join " " (t' :: rest))) hspace
      rw [hjoin, namesIn_eq, quotedFrom_append 0 _ _ (Nat.zero_le _), ← namesIn_eq, ← namesIn_eq, ih]
      exact List.flatMap_cons.symm

end Quotes

def Alike (l l' : Line) : Prop := l.bare = l'.bare ∧ namesIn l.source = namesIn l'.source

theorem listedExports_congr {ls ls' : List Line} (h : List.Forall₂ Alike ls ls') :
    listedExports ls = listedExports ls' := by
  induction h with
  | nil => rfl
  | @cons l l' rest rest' hl hrest ih =>
    have hcode : l.code = l'.code := by rw [← Line.bare_code, hl.1, Line.bare_code]
    have hlines : List.Forall₂ Alike (l :: rest) (l' :: rest') := .cons hl hrest
    have hbare : (l :: rest).map Line.bare = (l' :: rest').map Line.bare :=
      forall₂_iff_map_eq.mp (hlines.imp fun _ _ => And.left)
    have hsources : (l :: rest).map (fun l => namesIn l.source) = (l' :: rest').map fun l => namesIn l.source :=
      forall₂_iff_map_eq.mp (hlines.imp fun _ _ => And.right)
    have hheader : headerLength (l :: rest) = headerLength (l' :: rest') := by
      rw [← headerLength_bare, hbare, headerLength_bare]
    have hnames (n : Nat) : namesIn (join " " (((l :: rest).take n).map (·.source))) =
        namesIn (join " " (((l' :: rest').take n).map (·.source))) := by
      rw [namesIn_join, namesIn_join, List.flatMap_map, List.flatMap_map, List.flatMap_def, List.flatMap_def,
        List.map_take, List.map_take, hsources]
    rw [listedExports, listedExports, hcode, hheader, ih]
    exact congrArg (fun ns => if exportList.starts l'.code then some ns else listedExports rest') (hnames _)

end Python
end AnnotationIndex
