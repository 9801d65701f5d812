import AnnotationIndex.Proofs.StartLines

/-!
Where declarations stand in their file. The scanners of lines give every declaration a span of lines of the file,
and to each call and import the number of one. In Go a declaration starts at its header, in Python at the decorators
above it, which end below the header of the declaration before; so these list their declarations by their first
lines.
-/
namespace AnnotationIndex
open Text

structure Ascending (first stop : Int) (ds : List Declaration) : Prop where
  ordered : ds.Pairwise fun d e => d.lineSpan.start < e.lineSpan.start
  bounds : ∀ d ∈ ds, first ≤ d.lineSpan.start ∧ d.lineSpan.start < stop

namespace Ascending
variable {a b c : Int} {d : Declaration} {ds es : List Declaration}

theorem nil (a b : Int) : Ascending a b [] := ⟨.nil, fun _ h => absurd h List.not_mem_nil⟩

theorem mono (h : Ascending b c ds) (hab : a ≤ b) {c' : Int} (hc : c ≤ c') : Ascending a c' ds where
  ordered := h.ordered
  bounds := fun d hd => by
    obtain ⟨hfirst, hstop⟩ := h.bounds d hd
    omega

theorem append (hd : Ascending a b ds) (he : Ascending b c es) (hab : a ≤ b) (hbc : b ≤ c) :
    Ascending a c (ds ++ es) where
  ordered := List.pairwise_append.mpr ⟨hd.ordered, he.ordered, fun d hmem e hmem' =>
    Int.lt_of_lt_of_le (hd.bounds d hmem).2 (he.bounds e hmem').1⟩
  bounds := List.forall_mem_append.mpr ⟨(hd.mono (Int.le_refl a) hbc).bounds, (he.mono hab (Int.le_refl c)).bounds⟩

theorem singleton (hfirst : a ≤ d.lineSpan.start) (hstop : d.lineSpan.start < b) : Ascending a b [d] where
  ordered := List.pairwise_singleton _ d
  bounds := List.forall_mem_singleton.mpr ⟨hfirst, hstop⟩

end Ascending

namespace Go
variable {line : Nat}

theorem ascending_membersFrom (keyword : Text) (line left : Nat) (ls : List CodeLine) :
    Ascending line (line + left) (membersFrom keyword line left ls) := by
  fun_induction membersFrom keyword line left ls with
  | case1 | case2 => exact .nil _ _
  | case3 line l rest left found hfound ih => exact ih.mono (by omega) (by omega)
  | case4 line l rest left found m hm n kind ih =>
    have hn : n ≤ left := Nat.min_le_right _ _
    have hself : Ascending line (line + n + 1 : Nat) [declaration l line n (m.mark 1) kind none] :=
      .singleton (Int.le_refl _) (by simp only [declaration]; omega)
    exact (hself.append ih (by omega) (by omega)).mono (Int.le_refl _) (by omega)

/-- What a line declares starts at that line, or in the group that the line opens. -/
theorem ascending_declared? {l : CodeLine} {rest : List CodeLine} {ds : List Declaration}
    (hds : declared? l rest line = some ds) :
    Ascending line (line + CodeLine.blockLength (l :: rest) + 1 : Nat) ds := by
  have hself (name : Text) (kind : SymbolKind) (container : Option Text) :
      Ascending line (line + CodeLine.blockLength (l :: rest) + 1 : Nat)
        [declaration l line (CodeLine.blockLength (l :: rest)) name kind container] :=
    .singleton (Int.le_refl _) (by simp only [declaration]; omega)
  unfold declared? at hds
  dsimp only at hds
  split at hds
  · exact Option.some.inj hds ▸ hself ..
  split at hds
  · exact Option.some.inj hds ▸ hself ..
  split at hds
  · exact Option.some.inj hds ▸ (ascending_membersFrom _ _ _ _).mono (by omega) (by omega)
  split at hds
  · exact Option.some.inj hds ▸ hself ..
  obtain ⟨m, _, rfl⟩ := Option.map_eq_some_iff.mp hds
  exact hself ..

theorem ascending_declarationsFrom (line : Nat) (ls : List CodeLine) :
    Ascending line (line + ls.length) (declarationsFrom line ls) := by
  fun_induction declarationsFrom line ls with
  | case1 => exact .nil _ _
  | case2 line l rest found hfound ih =>
    rw [List.length_cons]
    exact ih.mono (by omega) (by omega)
  | case3 line l rest found ds hds n ih =>
    obtain ⟨-, hdeclared⟩ := Option.dite_none_left_eq_some.mp hds
    have hn : n ≤ rest.length := CodeLine.blockLength_le l rest
    rw [List.length_drop] at ih
    rw [List.length_cons]
    exact ((ascending_declared? hdeclared).append ih (by omega) (by omega)).mono (Int.le_refl _) (by omega)

end Go

theorem CodeLine.leading_append_le (p : Text → Bool) (nearer above : List Text) :
    leading p (nearer ++ above) ≤ nearer.length + leading p above := by
  induction nearer with
  | nil => simp
  | cons t nearer ih =>
    rw [leading, List.cons_append, List.takeWhile_cons, List.length_cons]
    split
    · rw [List.length_cons]
      unfold leading at ih ⊢
      omega
    · exact Nat.zero_le _

namespace Python

def Legible (l : Line) : Prop :=
  ∀ u, (trim l.code).head? = some u → isWordStart u = true → isDecorator (trim l.source) = false

/-- Masking leaves a decorator without a word in front. -/
theorem legible_linesOf (text : Text) : ∀ l ∈ linesOf text, Legible l := by
  intro l hl u hu hword
  obtain ⟨i, hi⟩ := List.mem_iff_getElem?.mp hl
  obtain ⟨-, hcode⟩ := getElem?_linesOf hi
  rw [head?_trim, hcode] at hu
  rw [isDecorator_eq, (Mask.head?_of_shows_word hu hword).1]
  refine beq_eq_false_iff_ne.mpr fun he => ?_
  obtain rfl := Option.some.inj he
  exact absurd hword (by decide)

/-- The first line that a declaration at `line` may start at: the decorators right above belong to it. -/
def firstAbove (above : List Line) (line : Nat) : Int := line - CodeLine.leading isDecorator (above.map (·.source))

theorem firstAbove_le (above : List Line) (line : Nat) : firstAbove above line ≤ line := by
  unfold firstAbove
  omega

/-- Passing lines does not move the first line upwards. -/
theorem firstAbove_passed (above : List Line) (l : Line) (rest : List Line) (line n : Nat) :
    firstAbove above line ≤ firstAbove ((rest.take n).reverse ++ l :: above) (line + n + 1) := by
  have hle :=
    CodeLine.leading_append_le isDecorator (((rest.take n).reverse ++ [l]).map (·.source)) (above.map (·.source))
  rw [← List.map_append, List.append_assoc, List.singleton_append, List.length_map, List.length_append,
    List.length_reverse, List.length_singleton] at hle
  have htake := List.length_take_le n rest
  unfold firstAbove
  omega

/-- Below a header the next declaration starts below it. -/
theorem lt_firstAbove_passed (above : List Line) {l : Line} (hl : isDecorator (trim l.source) = false)
    (rest : List Line)
    (line n : Nat) : (line : Int) < firstAbove ((rest.take n).reverse ++ l :: above) (line + n + 1) := by
  have hle :=
    CodeLine.leading_append_le isDecorator ((rest.take n).reverse.map (·.source)) ((l :: above).map (·.source))
  have hheader : CodeLine.leading isDecorator ((l :: above).map (·.source)) = 0 := by simp [CodeLine.leading, hl]
  rw [← List.map_append, hheader, List.length_map, List.length_reverse] at hle
  have htake := List.length_take_le n rest
  unfold firstAbove
  omega

/- The decorators above a line are counted upwards, so what carries the induction is how far up the next declaration
may start: below the header of the last one. -/
theorem ascending_declarationsFrom (above : List Line) (line : Nat) (scopes : List Scope) (ls : List Line) :
    (∀ l ∈ ls, Legible l) → ∀ first ≤ firstAbove above line,
      Ascending first (line + ls.length) (declarationsFrom above line scopes ls) := by
  fun_induction declarationsFrom above line scopes ls with
  | case1 => exact fun _ _ _ => .nil _ _
  | case2 above line scopes l rest _ ih =>
    intro hlegible first hfirst
    have hrest := ih (fun l' hl' => hlegible l' (List.mem_cons_of_mem l hl')) first
      (Int.le_trans hfirst (firstAbove_passed above l rest line 0))
    rw [List.length_cons]
    exact hrest.mono (Int.le_refl _) (by omega)
  | case3 above line scopes l rest _ scopes' s ih =>
    intro hlegible first hfirst
    have hlength : s.length ≤ rest.length := length_step_le above l rest line scopes'
    have hrest := ih fun l' hl' => hlegible l' (List.mem_cons_of_mem l (List.mem_of_mem_drop hl'))
    rw [List.length_drop] at hrest
    rw [List.length_cons]
    cases hlisted : s.declaration with
    | none =>
      have hpassed := hrest first (Int.le_trans hfirst (firstAbove_passed above l rest line s.length))
      exact hpassed.mono (Int.le_refl _) (by omega)
    | some d =>
      obtain ⟨⟨u, hu, hword⟩, hstart⟩ := listed_step above l rest line scopes' d hlisted
      have hheader := hlegible l List.mem_cons_self u hu hword
      have hbounds : firstAbove above line ≤ d.lineSpan.start ∧ d.lineSpan.start ≤ line := by
        have hle := firstAbove_le above line
        rcases hstart with hstart | hstart
        · omega
        · exact ⟨Int.le_of_eq hstart.symm, Int.le_trans (Int.le_of_eq hstart) hle⟩
      have hself : Ascending first (line + 1) [d] := .singleton (by omega) (by omega)
      have hbelow := hrest (line + 1) (lt_firstAbove_passed above hheader rest line s.length)
      exact (hself.append hbelow (by omega) (by omega)).mono (Int.le_refl _) (by omega)

theorem ordered_outline (path text : Text) :
    (outline path text).declarations.Pairwise fun d e => d.lineSpan.start < e.lineSpan.start := by
  have hfrom : Ascending 1 _ (declarationsFrom [] 1 [] (linesOf text)) :=
    ascending_declarationsFrom [] 1 [] _ (legible_linesOf text) 1 (Int.le_refl 1)
  have hspan (listed : Option (List Text)) (d : Declaration) : (withExports listed d).lineSpan = d.lineSpan := by
    unfold withExports
    split <;> rfl
  rw [outline_eq]
  exact List.pairwise_map.mpr (hfrom.ordered.imp fun h => by rwa [hspan, hspan])

end Python

namespace Extractor

def scanners : List Extractor := [python, go, rust, java]

/-- Every file of these languages has an outline, with the numbers of its own lines; in Python and in Go each
declaration starts below the start of the one before. -/
theorem scanned_inside {e : Extractor} (he : e ∈ scanners) (path text : Text) :
    ∃ o, e.outline path text = .ok o ∧ o.lineCount = (lines text).length ∧ o.Inside ∧
      (e = python ∨ e = go → o.declarations.Pairwise fun d d' => d.lineSpan.start < d'.lineSpan.start) := by
  simp only [scanners, List.mem_cons, List.not_mem_nil, or_false] at he
  obtain rfl | rfl | rfl | rfl := he
  · exact ⟨_, rfl, rfl, Python.inside_outline path text, fun _ => Python.ordered_outline path text⟩
  · exact ⟨_, rfl, rfl, Go.inside_outline text, fun _ => (Go.ascending_declarationsFrom 1 _).ordered⟩
  · refine ⟨_, rfl, rfl, Rust.inside_outline text, fun h => ?_⟩
    rcases h with h | h <;> exact absurd (congrArg Extractor.id h) (by decide)
  · refine ⟨_, rfl, rfl, Java.inside_outline text, fun h => ?_⟩
    rcases h with h | h <;> exact absurd (congrArg Extractor.id h) (by decide)

def unclosed : Text := "@note\nclass A:\n  @note\n  def f(self): pass\n\nx = (1,\nimport os\n"

theorem scanned_inside_unclosed :
    python ∈ scanners ∧
      (Python.outline "a.py" unclosed).declarations.map (fun d => (d.name, d.lineSpan)) =
        [(ofString "A", ⟨1, 4⟩), (ofString "f", ⟨3, 4⟩), (ofString "x", ⟨6, 6⟩)] ∧
      ∃ o, python.outline "a.py" unclosed = .ok o ∧ o.lineCount = (lines unclosed).length ∧ o.Inside ∧
        (python = python ∨ python = go → o.declarations.Pairwise fun d d' => d.lineSpan.start < d'.lineSpan.start) :=
  ⟨by simp [scanners], by decide +kernel, scanned_inside (by simp [scanners]) "a.py" unclosed⟩

end Extractor
end AnnotationIndex
