import AnnotationIndex.Proofs.CommentRegions
import AnnotationIndex.Proofs.LineNumbers

/-!
What the extractors of lines read in masked lines. A line bare of its source keeps its masked form and its depths.
-/
namespace AnnotationIndex
open Text

theorem map_passed {α β : Type} (f : α → β) (above : List α) (l : α) (rest : List α) (n : Nat) :
    ((rest.map f).take n).reverse ++ f l :: above.map f = ((rest.take n).reverse ++ l :: above).map f := by
  rw [List.map_append, List.map_reverse, List.map_take, List.map_cons]

/-- The walk over the lines of a file is at `line`, and the lines `above` are passed, the nearest first. -/
structure Walked {α : Type} (all above ls : List α) (line : Nat) : Prop where
  line_eq : line = above.length + 1
  lines_eq : above.reverse ++ ls = all

namespace Walked
variable {α : Type} {all above rest ls : List α} {l : α} {line : Nat}

theorem first (ls : List α) : Walked ls [] ls 1 := ⟨rfl, rfl⟩

theorem next (h : Walked all above (l :: rest) line) : Walked all (l :: above) rest (line + 1) where
  line_eq := by rw [List.length_cons, h.line_eq]
  lines_eq := by rw [← h.lines_eq, List.reverse_cons, List.append_assoc, List.singleton_append]

theorem skip (h : Walked all above (l :: rest) line) {n : Nat} (hn : n ≤ rest.length) :
    Walked all ((rest.take n).reverse ++ l :: above) (rest.drop n) (line + n + 1) where
  line_eq := by
    rw [List.length_append, List.length_reverse, List.length_take_of_le hn, List.length_cons, h.line_eq]
    omega
  lines_eq := by
    rw [← h.lines_eq, List.reverse_append, List.reverse_reverse, List.reverse_cons, List.append_assoc,
      List.append_assoc, List.take_append_drop, List.singleton_append]

end Walked

def Declaration.unsigned (d : Declaration) : Declaration := { d with signature := none }

namespace CodeLine

def bare (l : CodeLine) : CodeLine := { l with source := [] }

@[simp] theorem bare_code (l : CodeLine) : l.bare.code = l.code := rfl
@[simp] theorem bare_before (l : CodeLine) : l.bare.before = l.before := rfl

@[simp] theorem nextCode_bare (ls : List CodeLine) : nextCode (ls.map bare) = nextCode ls := by
  simp [nextCode, Function.comp_def]

theorem lengthFrom_bare (base : Depth) (opened : Bool) (ls : List CodeLine) :
    lengthFrom base opened (ls.map bare) = lengthFrom base opened ls := by
  induction ls generalizing opened with
  | nil => rfl
  | cons l rest ih =>
    cases rest with
    | nil => rfl
    | cons l' rest =>
      rw [List.map_cons, lengthFrom.eq_def, lengthFrom.eq_def base opened (l :: l' :: rest)]
      dsimp only
      rw [ih, nextCode_bare]
      rfl

@[simp] theorem blockLength_bare (l : CodeLine) (rest : List CodeLine) :
    blockLength (l.bare :: rest.map bare) = blockLength (l :: rest) :=
  lengthFrom_bare l.before false (l :: rest)

structure Passed (sources : List Text) (above ls : List CodeLine) (line : Nat) : Prop where
  line_eq : line = above.length + 1
  sources_eq : (above.reverse ++ ls).map (·.source) = sources

namespace Passed
variable {sources : List Text} {above rest ls : List CodeLine} {l : CodeLine} {line : Nat}

theorem walked (h : Passed sources above ls line) : Walked sources (above.map (·.source)) (ls.map (·.source)) line where
  line_eq := by rw [List.length_map, h.line_eq]
  lines_eq := by rw [← List.map_reverse, ← List.map_append, h.sources_eq]

theorem of_walked (h : Walked sources (above.map (·.source)) (ls.map (·.source)) line) :
    Passed sources above ls line where
  line_eq := by rw [h.line_eq, List.length_map]
  sources_eq := by rw [List.map_append, List.map_reverse, h.lines_eq]

theorem next (h : Passed sources above (l :: rest) line) : Passed sources (l :: above) rest (line + 1) :=
  of_walked h.walked.next

theorem skip (h : Passed sources above (l :: rest) line) {n : Nat} (hn : n ≤ rest.length) :
    Passed sources ((rest.take n).reverse ++ l :: above) (rest.drop n) (line + n + 1) := by
  have hskip := h.walked.skip ((List.length_map CodeLine.source).symm ▸ hn)
  rw [map_passed, ← List.map_drop] at hskip
  exact of_walked hskip

theorem take_sources (h : Passed sources above ls line) :
    (sources.take (line - 1)).reverse = above.map (·.source) := by
  rw [← h.sources_eq, h.line_eq, List.map_append, List.take_left' (by simp), List.map_reverse, List.reverse_reverse]

theorem getElem?_sources (h : Passed sources above (l :: rest) line) : sources[line - 1]? = some l.source := by
  rw [← h.sources_eq, h.line_eq]
  simp

end Passed

def leadingAt (p : Text → Bool) (sources : List Text) (line : Int) : Nat :=
  leading p (sources.take (line.toNat - 1)).reverse

def sourceAt (sources : List Text) (line : Int) : Text := sources.getD (line.toNat - 1) []

theorem leading_bare {p : Text → Bool} (hp : p [] = false) (above : List CodeLine) :
    leading p ((above.map bare).map (·.source)) = 0 := by
  cases above with
  | nil => rfl
  | cons l above => simp [leading, bare, trim, trimStart, trimEnd, hp]

end CodeLine

def Declaration.begun (p : Text → Bool) (sources : List Text) (d : Declaration) : Declaration :=
  { d.unsigned with
    lineSpan := ⟨d.lineSpan.start - CodeLine.leadingAt p sources d.lineSpan.start, d.lineSpan.stop⟩ }

namespace Go

theorem membersFrom_bare (keyword : Text) (line left : Nat) (ls : List CodeLine) :
    (membersFrom keyword line left (ls.map CodeLine.bare)).map Declaration.unsigned =
      (membersFrom keyword line left ls).map Declaration.unsigned := by
  fun_induction membersFrom keyword line left ls with
  | case1 => simp [membersFrom]
  | case2 line ls => cases ls <;> simp [membersFrom]
  | case3 line l rest left found hfound ih =>
    rw [List.map_cons, membersFrom]
    have hbare : (if l.bare.before.braces ≠ 0 || l.bare.before.brackets ≠ 1 then none
        else member.start (trim l.bare.code)) = none := hfound
    simp only [hbare]
    exact ih
  | case4 line l rest left found m hm n kind ih =>
    rw [List.map_cons, membersFrom]
    have hbare : (if l.bare.before.braces ≠ 0 || l.bare.before.brackets ≠ 1 then none
        else member.start (trim l.bare.code)) = some m := hm
    simp only [hbare]
    rw [List.map_cons, List.map_cons, CodeLine.blockLength_bare, ← List.map_drop, ih]
    rfl

theorem declared?_bare (l : CodeLine) (rest : List CodeLine) (line : Nat) :
    (declared? l.bare (rest.map CodeLine.bare) line).map (·.map Declaration.unsigned) =
      (declared? l rest line).map (·.map Declaration.unsigned) := by
  simp only [declared?, CodeLine.bare_code, CodeLine.blockLength_bare]
  repeat' split
  all_goals
    first
    | rfl
    | rw [Option.map_map, Option.map_map]; rfl
    | simp only [Option.map_some, membersFrom_bare]

theorem found_bare (l : CodeLine) (rest : List CodeLine) (line : Nat) :
    (if l.bare.before.braces ≠ 0 || l.bare.before.brackets ≠ 0 then none
      else declared? l.bare (rest.map CodeLine.bare) line).map (·.map Declaration.unsigned) =
    (if l.before.braces ≠ 0 || l.before.brackets ≠ 0 then none else declared? l rest line).map
      (·.map Declaration.unsigned) := by
  by_cases h : (l.before.braces ≠ 0 || l.before.brackets ≠ 0) = true
  · exact (congrArg _ (if_pos h)).trans (congrArg _ (if_pos h)).symm
  · exact (congrArg _ (if_neg h)).trans ((declared?_bare l rest line).trans (congrArg _ (if_neg h)).symm)

theorem declarationsFrom_bare (line : Nat) (ls : List CodeLine) :
    (declarationsFrom line (ls.map CodeLine.bare)).map Declaration.unsigned =
      (declarationsFrom line ls).map Declaration.unsigned := by
  fun_induction declarationsFrom line ls with
  | case1 => simp [declarationsFrom]
  | case2 line l rest found hfound ih =>
    have hbare := (found_bare l rest line).trans (congrArg _ hfound)
    rw [Option.map_none, Option.map_eq_none_iff] at hbare
    rw [List.map_cons, declarationsFrom, hbare]
    exact ih
  | case3 line l rest found ds hds n ih =>
    have hbare := (found_bare l rest line).trans (congrArg _ hds)
    obtain ⟨ds', hds', hmap⟩ := Option.map_eq_some_iff.mp hbare
    rw [List.map_cons, declarationsFrom, hds']
    simp only [List.map_append, CodeLine.blockLength_bare, ← List.map_drop, hmap, ih, n]

theorem calls_bare (ls : List CodeLine) : calls (ls.map CodeLine.bare) = calls ls := by
  rw [calls, List.zipIdx_map, List.flatMap_map]
  rfl

end Go

namespace Rust

theorem isAttribute_nil : isAttribute [] = false := by decide

section Begun
variable {sources : List Text} {above rest ls : List CodeLine} {l : CodeLine} {line : Nat}

theorem begun_declaration (h : CodeLine.Passed sources above ls line) (l : CodeLine) (length : Nat) (name : Text)
    (kind : SymbolKind) (exported : Bool) (container : Option Text) :
    (declaration (above.map CodeLine.bare) l.bare line length name kind exported container).begun isAttribute sources =
      (declaration above l line length name kind exported container).unsigned := by
  simp only [declaration, Declaration.unsigned, Declaration.begun, CodeLine.leading_bare isAttribute_nil,
    CodeLine.leadingAt]
  simp [h.take_sources]

theorem membersFrom_begun (container : Option Text) (depth : Nat) (allPublic : Bool) (left : Nat)
    (h : CodeLine.Passed sources above ls line) :
    (membersFrom container depth allPublic (above.map CodeLine.bare) line left (ls.map CodeLine.bare)).map
        (Declaration.begun isAttribute sources) =
      (membersFrom container depth allPublic above line left ls).map Declaration.unsigned := by
  fun_induction membersFrom container depth allPublic above line left ls with
  | case1 => simp [membersFrom]
  | case2 _ _ ls => cases ls <;> simp [membersFrom]
  | case3 above line l rest left found hfound ih =>
    have hbare : (if l.bare.before.braces ≠ depth then none else function.start (trim l.bare.code)) = none := hfound
    rw [List.map_cons, membersFrom, hbare]
    exact ih h.next
  | case4 above line l rest left found m hm n ih =>
    have hbare : (if l.bare.before.braces ≠ depth then none else function.start (trim l.bare.code)) = some m := hm
    rw [List.map_cons, membersFrom, hbare]
    simp only [List.map_cons, CodeLine.blockLength_bare, map_passed, ← List.map_drop,
      ih (h.skip (CodeLine.blockLength_le l rest)), begun_declaration h, n]

theorem members_begun (container : Text) (allPublic : Bool) (h : CodeLine.Passed sources above (l :: rest) line) :
    (members container allPublic (above.map CodeLine.bare) l.bare (rest.map CodeLine.bare) line).map
        (Declaration.begun isAttribute sources) =
      (members container allPublic above l rest line).map Declaration.unsigned := by
  rw [members, CodeLine.blockLength_bare, ← List.map_cons]
  exact membersFrom_begun _ _ _ _ h.next

theorem declared?_begun (h : CodeLine.Passed sources above (l :: rest) line) :
    (declared? (above.map CodeLine.bare) l.bare (rest.map CodeLine.bare) line).map
        (·.map (Declaration.begun isAttribute sources)) =
      (declared? above l rest line).map (·.map Declaration.unsigned) := by
  simp only [declared?, CodeLine.bare_code, CodeLine.blockLength_bare]
  repeat' split
  all_goals
    first
    | rfl
    | exact absurd ‹(declaration _ _ _ _ _ _ _ _).kind = .trait› ‹_›
    | simp only [Option.map_some, List.map_cons, List.map_nil, begun_declaration h, members_begun _ _ h]
    | simp only [Option.map_map, Function.comp_def, List.map_cons, List.map_nil, begun_declaration h]

theorem found_begun (h : CodeLine.Passed sources above (l :: rest) line) :
    (if l.bare.before.braces ≠ 0 then none
      else declared? (above.map CodeLine.bare) l.bare (rest.map CodeLine.bare) line).map
        (·.map (Declaration.begun isAttribute sources)) =
    (if l.before.braces ≠ 0 then none else declared? above l rest line).map (·.map Declaration.unsigned) := by
  by_cases hbraces : l.before.braces ≠ 0
  · rw [if_pos hbraces, CodeLine.bare_before, if_pos hbraces]
    rfl
  · rw [if_neg hbraces, CodeLine.bare_before, if_neg hbraces, declared?_begun h]

theorem declarationsFrom_begun (h : CodeLine.Passed sources above ls line) :
    (declarationsFrom (above.map CodeLine.bare) line (ls.map CodeLine.bare)).map
      (Declaration.begun isAttribute sources) =
      (declarationsFrom above line ls).map Declaration.unsigned := by
  fun_induction declarationsFrom above line ls with
  | case1 => simp [declarationsFrom]
  | case2 above line l rest found hfound ih =>
    have hbare := (found_begun h).trans (congrArg _ hfound)
    rw [Option.map_none, Option.map_eq_none_iff] at hbare
    rw [List.map_cons, declarationsFrom, hbare]
    exact ih h.next
  | case3 above line l rest found ds hds n ih =>
    have hbare := (found_begun h).trans (congrArg _ hds)
    obtain ⟨ds', hds', hmap⟩ := Option.map_eq_some_iff.mp hbare
    rw [List.map_cons, declarationsFrom, hds']
    dsimp only
    rw [List.map_append, List.map_append, hmap, CodeLine.blockLength_bare, map_passed, ← List.map_drop]
    exact congrArg _ (ih (h.skip (CodeLine.blockLength_le l rest)))

end Begun

theorem statementFrom_bare (t : Text) (ls : List CodeLine) :
    statementFrom t (ls.map CodeLine.bare) = statementFrom t ls := by
  induction ls generalizing t with
  | nil => rfl
  | cons l rest ih => simp only [List.map_cons, statementFrom, CodeLine.bare_code, ih]

theorem usesFrom_bare (line : Nat) (ls : List CodeLine) : usesFrom line (ls.map CodeLine.bare) = usesFrom line ls := by
  fun_induction usesFrom line ls with
  | case1 => simp [usesFrom]
  | case2 line l rest t hm ih =>
    have hm' : useLine.start (trim l.bare.code) = none := hm
    rw [List.map_cons, usesFrom, hm']
    exact ih
  | case3 line l rest t m hm statement n hs tree ih =>
    have hm' : useLine.start (trim l.bare.code) = some m := hm
    rw [List.map_cons, usesFrom, hm']
    dsimp only
    have hs' : statementFrom (trim l.bare.code) rest = (statement, n) := hs
    rw [statementFrom_bare, ← List.map_drop, hs']
    exact congrArg _ ih

theorem calls_bare (ls : List CodeLine) : calls (ls.map CodeLine.bare) = calls ls := by
  rw [calls, List.zipIdx_map, List.flatMap_map]
  rfl

end Rust

namespace Java

theorem annotationLine_nil : annotationLine.starts [] = false := by decide

def headerOf (source : Text) : Text := (headerEnd.remove (dropAnnotations (trim source))).take Outline.signatureLimit

def written (sources : List Text) (d : Declaration) : Declaration :=
  { d.begun annotationLine.starts sources with
    signature := some (headerOf (CodeLine.sourceAt sources d.lineSpan.start)) }

section Written
variable {sources : List Text} {above rest ls : List CodeLine} {l : CodeLine} {line : Nat}

theorem written_declaration (h : CodeLine.Passed sources above (l :: rest) line) (length : Nat) (name : Text)
    (kind : SymbolKind) (exported : Bool) (container : Option Text) :
    written sources (declaration (above.map CodeLine.bare) l.bare line length name kind exported container) =
      declaration above l line length name kind exported container := by
  simp only [declaration, written, Declaration.unsigned, Declaration.begun, CodeLine.leading_bare annotationLine_nil,
    CodeLine.leadingAt, CodeLine.sourceAt, headerOf]
  simp [h.take_sources, h.getElem?_sources]

theorem member?_written (container : Text) (inInterface : Bool) (h : CodeLine.Passed sources above (l :: rest) line) :
    (member? container inInterface (above.map CodeLine.bare) l.bare (rest.map CodeLine.bare) line).map
      (written sources) =
      member? container inInterface above l rest line := by
  simp only [member?, CodeLine.bare_code, CodeLine.blockLength_bare]
  repeat' split
  all_goals
    first
    | rfl
    | simp only [Option.map_some, written_declaration h]

theorem found_written (container : Text) (inInterface : Bool) (depth : Nat)
    (h : CodeLine.Passed sources above (l :: rest) line) :
    (if l.bare.before.braces ≠ depth || l.bare.before.brackets ≠ 0 then none
      else member? container inInterface (above.map CodeLine.bare) l.bare (rest.map CodeLine.bare) line).map
        (written sources) =
    if l.before.braces ≠ depth || l.before.brackets ≠ 0 then none
      else member? container inInterface above l rest line := by
  by_cases hdepth : (l.before.braces ≠ depth || l.before.brackets ≠ 0) = true
  · rw [if_pos hdepth, CodeLine.bare_before, if_pos hdepth]
    rfl
  · rw [if_neg hdepth, CodeLine.bare_before, if_neg hdepth, member?_written container inInterface h]

theorem membersFrom_written (container : Text) (inInterface : Bool) (depth left : Nat)
    (h : CodeLine.Passed sources above ls line) :
    (membersFrom container inInterface depth (above.map CodeLine.bare) line left (ls.map CodeLine.bare)).map
      (written sources) =
      membersFrom container inInterface depth above line left ls := by
  fun_induction membersFrom container inInterface depth above line left ls with
  | case1 => simp [membersFrom]
  | case2 _ _ ls => cases ls <;> simp [membersFrom]
  | case3 above line l rest left found hfound ih =>
    have hbare := (found_written container inInterface depth h).trans hfound
    rw [Option.map_eq_none_iff] at hbare
    rw [List.map_cons, membersFrom, hbare]
    exact ih h.next
  | case4 above line l rest left found d hd n ih =>
    have hbare := (found_written container inInterface depth h).trans hd
    obtain ⟨d', hd', hwritten⟩ := Option.map_eq_some_iff.mp hbare
    rw [List.map_cons, membersFrom, hd']
    dsimp only
    rw [List.map_cons, hwritten, CodeLine.blockLength_bare, map_passed, ← List.map_drop]
    exact congrArg _ (ih (h.skip (CodeLine.blockLength_le l rest)))

theorem declarationsFrom_written (h : CodeLine.Passed sources above ls line) :
    (declarationsFrom (above.map CodeLine.bare) line (ls.map CodeLine.bare)).map (written sources) =
      declarationsFrom above line ls := by
  fun_induction declarationsFrom above line ls with
  | case1 => simp [declarationsFrom]
  | case2 above line l rest hfound ih =>
    have hbare : (if l.bare.before.braces ≠ 0 then none
        else typeLine.start (dropAnnotations (trim l.bare.code))) = none := hfound
    rw [List.map_cons, declarationsFrom, hbare]
    exact ih h.next
  | case3 above line l rest m hm n kind d members ih =>
    have hbare : (if l.bare.before.braces ≠ 0 then none
        else typeLine.start (dropAnnotations (trim l.bare.code))) = some m := hm
    rw [List.map_cons, declarationsFrom, hbare]
    dsimp only
    rw [CodeLine.blockLength_bare, map_passed, ← List.map_drop, List.map_cons, written_declaration h, List.map_append]
    have hmembers := membersFrom_written d.name (kind = .interface) (l.before.braces + 1) (n - 1) h.next
    have hrest := ih (h.skip (CodeLine.blockLength_le l rest))
    exact congrArg _ (congrArg₂ _ hmembers hrest)

end Written

theorem imports_bare (ls : List CodeLine) : imports (ls.map CodeLine.bare) = imports ls := by
  rw [imports, List.zipIdx_map, List.filterMap_map]
  rfl

theorem calls_bare (ls : List CodeLine) : calls (ls.map CodeLine.bare) = calls ls := by
  rw [calls, List.zipIdx_map, List.flatMap_map]
  rfl

end Java

namespace Python

def Line.bare (l : Line) : Line := { l with source := if isDecorator (trim l.source) then ofString "@" else [] }

@[simp] theorem Line.bare_code (l : Line) : l.bare.code = l.code := rfl

theorem isDecorator_bare (l : Line) : isDecorator (trim l.bare.source) = isDecorator (trim l.source) := by
  have hempty : isDecorator (trim []) = false := by decide
  have hsign : isDecorator (trim (ofString "@")) = true := by decide
  cases h : isDecorator (trim l.source) <;> simp only [Line.bare, h, hempty, hsign, if_true, Bool.false_eq_true,
    if_false]

theorem closeFrom_bare (depth : Nat) (ls : List Line) : closeFrom depth (ls.map Line.bare) = closeFrom depth ls := by
  induction ls generalizing depth with
  | nil => rfl
  | cons l rest ih =>
    simp only [List.map_cons, closeFrom, Line.bare_code, ih]
    rfl

@[simp] theorem headerLength_bare (ls : List Line) : headerLength (ls.map Line.bare) = headerLength ls := by
  rw [headerLength, closeFrom_bare, headerLength]

theorem bodyFrom_bare (indent n last : Nat) (ls : List Line) :
    bodyFrom indent n last (ls.map Line.bare) = bodyFrom indent n last ls := by
  induction ls generalizing n last with
  | nil => rfl
  | cons l rest ih => simp only [List.map_cons, bodyFrom, Line.bare_code, ih]

theorem leading_bare (above : List Line) :
    CodeLine.leading isDecorator ((above.map Line.bare).map (·.source)) =
      CodeLine.leading isDecorator (above.map (·.source)) := by
  induction above with
  | nil => rfl
  | cons l above ih =>
    simp only [CodeLine.leading, List.map_cons, List.takeWhile_cons, isDecorator_bare] at ih ⊢
    split
    · rw [List.length_cons, List.length_cons, ih]
    · rfl

theorem unsigned_blockDeclaration (above ls : List Line) (line indent : Nat) (name : Text) (kind : SymbolKind)
    (exported : Bool) (container : Option Text) :
    (blockDeclaration (above.map Line.bare) (ls.map Line.bare) line indent name kind exported container).unsigned =
      (blockDeclaration above ls line indent name kind exported container).unsigned := by
  simp only [blockDeclaration, Declaration.unsigned, leading_bare, headerLength_bare, bodyLength, ← List.map_drop,
    bodyFrom_bare]

/-- A step differs at most in the signature of what it declares. -/
theorem step_bare (above : List Line) (l : Line) (rest : List Line) (line : Nat) (scopes : List Scope) :
    let s' := step (above.map Line.bare) (l.bare :: rest.map Line.bare) line scopes
    let s := step above (l :: rest) line scopes
    s'.declaration.map Declaration.unsigned = s.declaration.map Declaration.unsigned ∧
      s'.scope = s.scope ∧ s'.length = s.length := by
  have hblock := unsigned_blockDeclaration above (l :: rest) line
  have hheader := headerLength_bare (l :: rest)
  simp only [List.map_cons] at hblock hheader
  simp only [step, Line.bare_code]
  repeat' split
  all_goals simp only [Option.map_some, Option.map_none, hblock, hheader, and_true]
  all_goals rfl

theorem declarationsFrom_bare (above : List Line) (line : Nat) (scopes : List Scope) (ls : List Line) :
    (declarationsFrom (above.map Line.bare) line scopes (ls.map Line.bare)).map Declaration.unsigned =
      (declarationsFrom above line scopes ls).map Declaration.unsigned := by
  fun_induction declarationsFrom above line scopes ls with
  | case1 => simp [declarationsFrom]
  | case2 above line scopes l rest h ih =>
    rw [List.map_cons, declarationsFrom, Line.bare_code, if_pos h]
    exact ih
  | case3 above line scopes l rest h scopes' s ih =>
    rw [List.map_cons, declarationsFrom, Line.bare_code, if_neg h]
    obtain ⟨hdeclaration, hscope, hlength⟩ := step_bare above l rest line (openScopes scopes (indentWidth l.code))
    dsimp only
    rw [List.map_append, ← Option.toList_map, hdeclaration, hscope, hlength, map_passed, ← List.map_drop,
      Option.toList_map]
    exact (congrArg _ ih).trans List.map_append.symm

theorem bracketedNames_bare (names : Text) (ls : List Line) :
    bracketedNames names (ls.map Line.bare) = bracketedNames names ls := by
  induction ls generalizing names with
  | nil => rfl
  | cons l rest ih => simp only [List.map_cons, bracketedNames, Line.bare_code, ih]

theorem continuedNames_bare (names : Text) (ls : List Line) :
    continuedNames names (ls.map Line.bare) = continuedNames names ls := by
  induction ls generalizing names with
  | nil => rfl
  | cons l rest ih => simp only [List.map_cons, continuedNames, Line.bare_code, ih]

theorem importsFrom_bare (line : Nat) (ls : List Line) : importsFrom line (ls.map Line.bare) = importsFrom line ls := by
  fun_induction importsFrom line ls with
  | case1 => simp [importsFrom]
  | case2 line l rest t m hm ih =>
    have hm' : importLine.start (trim l.bare.code) = some m := hm
    rw [List.map_cons, importsFrom, hm']
    exact congrArg _ ih
  | case3 line l rest t hm hfrom ih =>
    have hm' : importLine.start (trim l.bare.code) = none := hm
    have hfrom' : fromLine.start (trim l.bare.code) = none := hfrom
    rw [List.map_cons, importsFrom, hm', hfrom']
    exact ih
  | case4 line l rest t hm m hfrom names names' n hn ih =>
    have hm' : importLine.start (trim l.bare.code) = none := hm
    have hfrom' : fromLine.start (trim l.bare.code) = some m := hfrom
    rw [List.map_cons, importsFrom, hm', hfrom']
    have hn' : (if startsWith (trim (m.mark 2)) "(" && !(trim (m.mark 2)).elem (unit ')') then
        bracketedNames (trim (m.mark 2)) rest else continuedNames (trim (m.mark 2)) rest) = (names', n) := hn
    simp only [bracketedNames_bare, continuedNames_bare, hn', ← List.map_drop]
    exact congrArg _ ih

theorem calls_bare (ls : List Line) : calls (ls.map Line.bare) = calls ls := by
  rw [calls, List.zipIdx_map, List.flatMap_map]
  rfl

/-- Whether a file lists its exports is read in masked code, what it lists is not. -/
theorem isSome_listedExports_bare (ls : List Line) :
    (listedExports (ls.map Line.bare)).isSome = (listedExports ls).isSome := by
  induction ls with
  | nil => rfl
  | cons l rest ih =>
    rw [List.map_cons, listedExports, listedExports, Line.bare_code]
    by_cases h : exportList.starts l.code = true
    · rw [if_pos h, if_pos h]
      rfl
    · rw [if_neg h, if_neg h, ih]

end Python
end AnnotationIndex
