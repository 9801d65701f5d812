import AnnotationIndex.Proofs.IndexedFile

/-!
Line numbers of outlines. The scanners of lines number them as they go, and every declaration ends where the lines
end at the latest; so the numbers of an outline are those of its lines, and every declaration ends no earlier than
it starts. The numbers of a script are bounded by the length of its text.
-/
namespace AnnotationIndex
open Text

def LineSpan.Within (k : Nat) (s : LineSpan) : Prop := s.start.natAbs ≤ k ∧ s.stop.natAbs ≤ k

structure Outline.Within (k : Nat) (o : Outline) : Prop where
  lineCount : o.lineCount ≤ k
  declarations : ∀ d ∈ o.declarations, d.lineSpan.Within k
  imports : ∀ s ∈ o.imports, s.line.natAbs ≤ k
  calls : ∀ c ∈ o.calls, c.line.natAbs ≤ k

def IsLine (k : Nat) (n : Int) : Prop := 1 ≤ n ∧ n ≤ k

structure LineSpan.Inside (k : Nat) (s : LineSpan) : Prop where
  first : 1 ≤ s.start
  ordered : s.start ≤ s.stop
  last : s.stop ≤ k

structure Outline.Inside (o : Outline) : Prop where
  declarations : ∀ d ∈ o.declarations, d.lineSpan.Inside o.lineCount
  imports : ∀ s ∈ o.imports, IsLine o.lineCount s.line
  calls : ∀ c ∈ o.calls, IsLine o.lineCount c.line

theorem IsLine.natAbs_le {k : Nat} {n : Int} (h : IsLine k n) : n.natAbs ≤ k := by
  obtain ⟨hfirst, hlast⟩ := h
  omega

theorem LineSpan.Inside.within {k : Nat} {s : LineSpan} (h : s.Inside k) : s.Within k := by
  obtain ⟨hfirst, hordered, hlast⟩ := h
  constructor <;> omega

theorem Outline.Inside.within {o : Outline} (h : o.Inside) : o.Within o.lineCount where
  lineCount := Nat.le_refl _
  declarations := fun d hd => (h.declarations d hd).within
  imports := fun s hs => (h.imports s hs).natAbs_le
  calls := fun c hc => (h.calls c hc).natAbs_le

structure Fits {α : Type} (k line : Nat) (ls : List α) : Prop where
  first : 1 ≤ line
  last : ∀ i < ls.length, line + i ≤ k

namespace Fits
variable {α β : Type} {k line : Nat} {l : α} {rest ls : List α}

theorem of_length_le (h : ls.length ≤ k) : Fits k 1 ls := ⟨Nat.le_refl 1, fun i hi => by omega⟩

theorem head (h : Fits k line (l :: rest)) : line ≤ k := h.last 0 (by simp)

theorem isLine (h : Fits k line (l :: rest)) : IsLine k line := by
  have hfirst := h.first
  have hhead := h.head
  constructor <;> omega

theorem tail (h : Fits k line (l :: rest)) : Fits k (line + 1) rest where
  first := Nat.le_add_left 1 line
  last := fun i hi => by
    have hnext := h.last (i + 1) (by simpa using hi)
    omega

theorem drop (h : Fits k line (l :: rest)) (n : Nat) : Fits k (line + n + 1) (rest.drop n) where
  first := Nat.le_add_left 1 (line + n)
  last := fun i hi => by
    rw [List.length_drop] at hi
    have hnext := h.last (i + n + 1) (by rw [List.length_cons]; omega)
    omega

/-- A declaration that starts at lines above it and takes no more lines than there are. -/
theorem spanAbove (h : Fits k line (l :: rest)) {n m : Nat} (hn : n ≤ rest.length) (hm : m < line) :
    LineSpan.Inside k ⟨(line : Int) - m, (line : Int) + n⟩ := by
  have hstop := h.last n (by rw [List.length_cons]; omega)
  constructor <;> dsimp only <;> omega

theorem span (h : Fits k line (l :: rest)) {n : Nat} (hn : n ≤ rest.length) :
    LineSpan.Inside k ⟨line, (line : Int) + n⟩ := by
  simpa using h.spanAbove hn h.first

/-- The lines passed so far are fewer than the number of the next one. -/
theorem length_passed {above : List α} (h : above.length < line) (l : α) (rest : List α) (n : Nat) :
    ((rest.take n).reverse ++ l :: above).length < line + n + 1 := by
  rw [List.length_append, List.length_reverse, List.length_cons]
  have htake := List.length_take_le n rest
  omega

theorem zipIdx (h : Fits k 1 ls) {e : α × Nat} (he : e ∈ ls.zipIdx) : IsLine k ((e.2 : Int) + 1) := by
  obtain ⟨_, hi, _⟩ := List.mem_zipIdx he
  have hline := h.last e.2 (by omega)
  constructor <;> omega

/-- Calls that are collected line by line have the numbers of their lines. -/
theorem calls (h : Fits k 1 ls) {f : α × Nat → List CallSite}
    (hf : ∀ l (i : Nat), ∀ c ∈ f (l, i), c.line = (i : Int) + 1) : ∀ c ∈ ls.zipIdx.flatMap f, IsLine k c.line := by
  intro c hc
  obtain ⟨e, he, hc⟩ := List.mem_flatMap.mp hc
  rw [hf e.1 e.2 c hc]
  exact h.zipIdx he

end Fits

/-- The calls of a line, unless it has none. -/
theorem line_calls {p : Prop} [Decidable p] {names : List Text} {call : Text → CallSite} {n : Int}
    (h : ∀ t, (call t).line = n) : ∀ c ∈ if p then [] else names.map call, c.line = n := by
  intro c hc
  split at hc
  · exact absurd hc List.not_mem_nil
  · obtain ⟨t, _, rfl⟩ := List.mem_map.mp hc
    exact h t

namespace CodeLine

theorem lengthFrom_le (base : Depth) (opened : Bool) (l : CodeLine) (rest : List CodeLine) :
    lengthFrom base opened (l :: rest) ≤ rest.length := by
  induction rest generalizing opened l with
  | nil =>
    rw [lengthFrom]
    repeat' split
    all_goals simp
  | cons l' rest ih =>
    have hnext := ih (opened || isOpen l.code) l'
    rw [lengthFrom, List.length_cons]
    repeat' split
    all_goals omega

theorem blockLength_le (l : CodeLine) (rest : List CodeLine) : blockLength (l :: rest) ≤ rest.length :=
  lengthFrom_le _ _ _ _

theorem leading_le (p : Text → Bool) (above : List CodeLine) : leading p (above.map (·.source)) ≤ above.length := by
  rw [leading]
  exact Nat.le_trans (List.takeWhile_sublist _).length_le (Nat.le_of_eq (List.length_map _))

theorem length_indexFrom (d : Depth) (es : List (Text × Text)) : (indexFrom d es).length = es.length := by
  induction es generalizing d with
  | nil => rfl
  | cons e rest ih => rw [indexFrom, List.length_cons, List.length_cons, ih]

theorem fits_index (sources codes : List Text) : Fits sources.length 1 (index sources codes) := by
  refine .of_length_le ?_
  rw [index, length_indexFrom, List.length_zip]
  exact Nat.min_le_left _ _

end CodeLine

namespace Go
variable {k line : Nat}

theorem inside_membersFrom (keyword : Text) {left : Nat} {ls : List CodeLine} (h : Fits k line ls) :
    ∀ d ∈ membersFrom keyword line left ls, d.lineSpan.Inside k := by
  fun_induction membersFrom keyword line left ls with
  | case1 => exact fun _ hd => absurd hd List.not_mem_nil
  | case2 => exact fun _ hd => absurd hd List.not_mem_nil
  | case3 line l rest left found hfound ih => exact ih h.tail
  | case4 line l rest left found m hm n kind ih =>
    refine List.forall_mem_cons.mpr ⟨h.span ?_, ih (h.drop n)⟩
    exact Nat.le_trans (Nat.min_le_left _ _) (CodeLine.blockLength_le l rest)

theorem inside_declared? {l : CodeLine} {rest : List CodeLine} (h : Fits k line (l :: rest)) {ds : List Declaration}
    (hds : declared? l rest line = some ds) : ∀ d ∈ ds, d.lineSpan.Inside k := by
  have hone : ∀ name kind container, ∀ d ∈ [declaration l line (CodeLine.blockLength (l :: rest)) name kind container],
      d.lineSpan.Inside k := by
    intro name kind container d hd
    rw [List.mem_singleton.mp hd]
    exact h.span (CodeLine.blockLength_le l rest)
  unfold declared? at hds
  dsimp only at hds
  split at hds
  · exact Option.some.inj hds ▸ hone _ _ _
  split at hds
  · exact Option.some.inj hds ▸ hone _ _ _
  split at hds
  · exact Option.some.inj hds ▸ inside_membersFrom _ h.tail
  split at hds
  · exact Option.some.inj hds ▸ hone _ _ _
  obtain ⟨m, _, rfl⟩ := Option.map_eq_some_iff.mp hds
  exact hone _ _ _

theorem inside_declarationsFrom {ls : List CodeLine} (h : Fits k line ls) :
    ∀ d ∈ declarationsFrom line ls, d.lineSpan.Inside k := by
  fun_induction declarationsFrom line ls with
  | case1 => exact fun _ hd => absurd hd List.not_mem_nil
  | case2 line l rest found hfound ih => exact ih h.tail
  | case3 line l rest found ds hds n ih =>
    refine List.forall_mem_append.mpr ⟨?_, ih (h.drop n)⟩
    have hds : found = some ds := hds
    simp only [found] at hds
    split at hds
    · exact absurd hds (by simp)
    · exact inside_declared? h hds

theorem line_importStatement (line : Nat) (m : Pattern.Match) : (importStatement line m).line = line := by
  unfold importStatement
  dsimp only
  repeat' split
  all_goals rfl

theorem inside_importStatement (h : IsLine k line) (m : Option Pattern.Match) :
    ∀ s ∈ (m.map (importStatement line)).toList, IsLine k s.line := by
  intro s hs
  obtain ⟨m, _, rfl⟩ := Option.map_eq_some_iff.mp (Option.mem_toList.mp hs)
  rw [line_importStatement]
  exact h

theorem inside_importGroupFrom {ls : List CodeLine} (h : Fits k line ls) :
    ∀ s ∈ (importGroupFrom line ls).1, IsLine k s.line := by
  induction ls generalizing line with
  | nil => exact fun _ hs => absurd hs List.not_mem_nil
  | cons l rest ih =>
    rw [importGroupFrom]
    dsimp only
    split
    · exact fun _ hs => absurd hs List.not_mem_nil
    · exact List.forall_mem_append.mpr ⟨inside_importStatement h.isLine _, ih h.tail⟩

theorem inside_importsFrom {ls : List CodeLine} (h : Fits k line ls) :
    ∀ s ∈ importsFrom line ls, IsLine k s.line := by
  fun_induction importsFrom line ls with
  | case1 => exact fun _ hs => absurd hs List.not_mem_nil
  | case2 line l rest _ ih => exact ih h.tail
  | case3 line l rest _ _ m _ ih => exact List.forall_mem_append.mpr ⟨inside_importStatement h.isLine _, ih h.tail⟩
  | case4 line l rest _ _ _ _ found n hgroup ih =>
    refine List.forall_mem_append.mpr ⟨?_, ih ?_⟩
    · exact fun s hs => inside_importGroupFrom h.tail s (by rw [hgroup]; exact hs)
    · exact h.drop (n + 1)
  | case5 line l rest _ _ _ _ ih => exact ih h.tail

theorem inside_outline (text : Text) : (outline text).Inside := by
  have hfits := CodeLine.fits_index (Text.lines text) (Mask.code ⟨true, true, false⟩ (Text.lines text))
  exact ⟨inside_declarationsFrom hfits, inside_importsFrom hfits, hfits.calls fun _ _ => line_calls fun _ => rfl⟩

end Go
namespace Java
variable {k line : Nat} {above : List CodeLine}

theorem inside_declaration {l : CodeLine} {rest : List CodeLine} (h : Fits k line (l :: rest))
    (ha : above.length < line) (name : Text) (kind : SymbolKind) (exported : Bool) (container : Option Text) :
    (declaration above l line (CodeLine.blockLength (l :: rest)) name kind exported container).lineSpan.Inside k :=
  h.spanAbove (CodeLine.blockLength_le l rest) (Nat.lt_of_le_of_lt (CodeLine.leading_le _ above) ha)

theorem inside_member? {container : Text} {inInterface : Bool} {l : CodeLine} {rest : List CodeLine} {d : Declaration}
    (h : Fits k line (l :: rest)) (ha : above.length < line)
    (hd : member? container inInterface above l rest line = some d) : d.lineSpan.Inside k := by
  unfold member? at hd
  dsimp only at hd
  repeat' split at hd
  all_goals
    first
    | exact Option.some.inj hd ▸ inside_declaration h ha _ _ _ _
    | exact absurd hd (by simp)

theorem inside_membersFrom (container : Text) (inInterface : Bool) (depth : Nat) {left : Nat} {ls : List CodeLine}
    (h : Fits k line ls) (ha : above.length < line) :
    ∀ d ∈ membersFrom container inInterface depth above line left ls, d.lineSpan.Inside k := by
  fun_induction membersFrom container inInterface depth above line left ls with
  | case1 => exact fun _ hd => absurd hd List.not_mem_nil
  | case2 => exact fun _ hd => absurd hd List.not_mem_nil
  | case3 above line l rest left found hfound ih => exact ih h.tail (by simpa using ha)
  | case4 above line l rest left found d hd n ih =>
    refine List.forall_mem_cons.mpr ⟨?_, ih (h.drop n) (Fits.length_passed ha l rest n)⟩
    have hd : found = some d := hd
    simp only [found] at hd
    split at hd
    · exact absurd hd (by simp)
    · exact inside_member? h ha hd

theorem inside_declarationsFrom {ls : List CodeLine} (h : Fits k line ls) (ha : above.length < line) :
    ∀ d ∈ declarationsFrom above line ls, d.lineSpan.Inside k := by
  fun_induction declarationsFrom above line ls with
  | case1 => exact fun _ hd => absurd hd List.not_mem_nil
  | case2 above line l rest hfound ih => exact ih h.tail (by simpa using ha)
  | case3 above line l rest m hm n kind d members ih =>
    refine List.forall_mem_cons.mpr ⟨inside_declaration h ha _ _ _ _, List.forall_mem_append.mpr ⟨?_, ?_⟩⟩
    · exact inside_membersFrom _ _ _ h.tail (by simpa using ha)
    · exact ih (h.drop n) (Fits.length_passed ha l rest n)

theorem line_importStatement (line : Nat) (m : Pattern.Match) : (importStatement line m).line = line := by
  unfold importStatement
  dsimp only
  repeat' split
  all_goals rfl

theorem inside_outline (text : Text) : (outline text).Inside := by
  have hfits := CodeLine.fits_index (Text.lines text) (Mask.code ⟨false, true, false⟩ (Text.lines text))
  refine ⟨inside_declarationsFrom hfits Nat.one_pos, fun s hs => ?_, hfits.calls fun _ _ => line_calls fun _ => rfl⟩
  obtain ⟨e, he, hs⟩ := List.mem_filterMap.mp hs
  obtain ⟨m, _, rfl⟩ := Option.map_eq_some_iff.mp hs
  rw [line_importStatement]
  exact hfits.zipIdx he

end Java

namespace Rust
variable {k line : Nat} {above : List CodeLine}

theorem inside_declaration {l : CodeLine} {rest : List CodeLine} (h : Fits k line (l :: rest))
    (ha : above.length < line) (name : Text) (kind : SymbolKind) (exported : Bool) (container : Option Text) :
    (declaration above l line (CodeLine.blockLength (l :: rest)) name kind exported container).lineSpan.Inside k :=
  h.spanAbove (CodeLine.blockLength_le l rest) (Nat.lt_of_le_of_lt (CodeLine.leading_le _ above) ha)

theorem inside_membersFrom (container : Option Text) (depth : Nat) (allPublic : Bool) {left : Nat} {ls : List CodeLine}
    (h : Fits k line ls) (ha : above.length < line) :
    ∀ d ∈ membersFrom container depth allPublic above line left ls, d.lineSpan.Inside k := by
  fun_induction membersFrom container depth allPublic above line left ls with
  | case1 => exact fun _ hd => absurd hd List.not_mem_nil
  | case2 => exact fun _ hd => absurd hd List.not_mem_nil
  | case3 above line l rest left found hfound ih => exact ih h.tail (by simpa using ha)
  | case4 above line l rest left found m hm n ih =>
    exact List.forall_mem_cons.mpr
      ⟨inside_declaration h ha _ _ _ _, ih (h.drop n) (Fits.length_passed ha l rest n)⟩

theorem inside_declared? {l : CodeLine} {rest : List CodeLine} (h : Fits k line (l :: rest)) (ha : above.length < line)
    {ds : List Declaration} (hds : declared? above l rest line = some ds) : ∀ d ∈ ds, d.lineSpan.Inside k := by
  have hone : ∀ name kind exported container,
      ∀ d ∈ [declaration above l line (CodeLine.blockLength (l :: rest)) name kind exported container],
        d.lineSpan.Inside k := by
    intro name kind exported container d hd
    rw [List.mem_singleton.mp hd]
    exact inside_declaration h ha _ _ _ _
  have hmembers : ∀ container allPublic, ∀ d ∈ members container allPublic above l rest line, d.lineSpan.Inside k :=
    fun _ _ => inside_membersFrom _ _ _ h.tail (by simpa using ha)
  unfold declared? at hds
  dsimp only at hds
  split at hds
  · exact absurd hds (by simp)
  split at hds
  · exact Option.some.inj hds ▸ hmembers _ _
  split at hds
  · exact Option.some.inj hds ▸ hone _ _ _ _
  split at hds
  · obtain rfl := Option.some.inj hds
    split
    · exact List.forall_mem_cons.mpr ⟨inside_declaration h ha _ _ _ _, hmembers _ _⟩
    · exact hone _ _ _ _
  split at hds
  · exact Option.some.inj hds ▸ hone _ _ _ _
  obtain ⟨m, _, rfl⟩ := Option.map_eq_some_iff.mp hds
  exact hone _ _ _ _

theorem inside_declarationsFrom {ls : List CodeLine} (h : Fits k line ls) (ha : above.length < line) :
    ∀ d ∈ declarationsFrom above line ls, d.lineSpan.Inside k := by
  fun_induction declarationsFrom above line ls with
  | case1 => exact fun _ hd => absurd hd List.not_mem_nil
  | case2 above line l rest found hfound ih => exact ih h.tail (by simpa using ha)
  | case3 above line l rest found ds hds n ih =>
    refine List.forall_mem_append.mpr ⟨?_, ih (h.drop n) (Fits.length_passed ha l rest n)⟩
    have hds : found = some ds := hds
    simp only [found] at hds
    split at hds
    · exact absurd hds (by simp)
    · exact inside_declared? h ha hds

theorem line_addName {specifier : Text} {n : ImportedName} {imports : List ImportStatement}
    (h : ∀ s ∈ imports, s.line = line) : ∀ s ∈ addName line specifier n imports, s.line = line := by
  unfold addName
  dsimp only
  split
  · intro s hs
    obtain ⟨s', hs', rfl⟩ := List.mem_map.mp hs
    split
    · exact h s' hs'
    · exact h s' hs'
  · exact List.forall_mem_append.mpr ⟨h, fun s hs => List.mem_singleton.mp hs ▸ rfl⟩

theorem line_addLeaf {isPublic : Bool} {u : Uses} {leaf : UseLeaf} (h : ∀ s ∈ u.imports, s.line = line) :
    ∀ s ∈ (addLeaf line isPublic u leaf).imports, s.line = line := by
  unfold addLeaf
  dsimp only
  split
  · exact List.forall_mem_append.mpr ⟨h, fun s hs => List.mem_singleton.mp hs ▸ rfl⟩
  split
  · exact List.forall_mem_append.mpr ⟨h, fun s hs => List.mem_singleton.mp hs ▸ rfl⟩
  · exact line_addName h

theorem line_foldl_addLeaf (isPublic : Bool) (leaves : List UseLeaf) {u : Uses} (h : ∀ s ∈ u.imports, s.line = line) :
    ∀ s ∈ (leaves.foldl (addLeaf line isPublic) u).imports, s.line = line := by
  induction leaves generalizing u with
  | nil => exact h
  | cons leaf rest ih => exact ih (line_addLeaf h)

theorem inside_usesFrom {ls : List CodeLine} (h : Fits k line ls) :
    ∀ u ∈ usesFrom line ls, ∀ s ∈ u.imports, IsLine k s.line := by
  fun_induction usesFrom line ls with
  | case1 => exact fun _ hu => absurd hu List.not_mem_nil
  | case2 line l rest _ _ ih => exact ih h.tail
  | case3 line l rest t m hm statement n hs tree ih =>
    refine List.forall_mem_cons.mpr ⟨fun s hs => ?_, ih (h.drop n)⟩
    rw [line_foldl_addLeaf _ _ (fun _ hs => absurd hs List.not_mem_nil) s hs]
    exact h.isLine

theorem inside_outline (text : Text) : (outline text).Inside := by
  have hfits := CodeLine.fits_index (Text.lines text) (Mask.code ⟨false, true, false⟩ (Text.lines text))
  refine ⟨inside_declarationsFrom hfits Nat.one_pos, fun s hs => ?_, hfits.calls fun _ _ => line_calls fun _ => rfl⟩
  obtain ⟨u, hu, hs⟩ := List.mem_flatMap.mp hs
  exact inside_usesFrom hfits u hu s hs

end Rust

namespace Python
variable {k line : Nat} {above : List Line}

theorem closeFrom_lt {depth n : Nat} {ls : List Line} (h : closeFrom depth ls = some n) : n < ls.length := by
  induction ls generalizing depth n with
  | nil => exact absurd h (by simp [closeFrom])
  | cons l rest ih =>
    rw [closeFrom] at h
    split at h
    · obtain rfl := Option.some.inj h
      exact Nat.succ_pos _
    · obtain ⟨m, hm, rfl⟩ := Option.map_eq_some_iff.mp h
      exact Nat.succ_lt_succ (ih hm)

theorem headerLength_le (l : Line) (rest : List Line) : headerLength (l :: rest) ≤ rest.length := by
  rw [headerLength]
  cases hn : closeFrom 0 (l :: rest) with
  | none => exact Nat.zero_le _
  | some n => exact Nat.le_of_lt_succ (closeFrom_lt hn)

theorem bodyFrom_le (indent : Nat) {n last : Nat} (h : last ≤ n) (ls : List Line) :
    bodyFrom indent n last ls ≤ n + ls.length := by
  induction ls generalizing n last with
  | nil => exact h
  | cons l rest ih =>
    rw [bodyFrom, List.length_cons]
    split
    · exact Nat.le_trans (ih (Nat.le_succ_of_le h)) (by omega)
    split
    · omega
    · exact Nat.le_trans (ih (Nat.le_refl _)) (by omega)

/-- The body of a block ends where the lines end at the latest. -/
theorem bodyLength_le (indent : Nat) (l : Line) (rest : List Line) :
    headerLength (l :: rest) + bodyLength indent ((l :: rest).drop (headerLength (l :: rest) + 1)) ≤ rest.length := by
  have hbody := bodyFrom_le indent (Nat.le_refl 0) ((l :: rest).drop (headerLength (l :: rest) + 1))
  have hheader := headerLength_le l rest
  rw [List.length_drop, List.length_cons] at hbody
  rw [bodyLength]
  omega

theorem leading_le (above : List Line) : CodeLine.leading isDecorator (above.map (·.source)) ≤ above.length := by
  rw [CodeLine.leading]
  exact Nat.le_trans (List.takeWhile_sublist _).length_le (Nat.le_of_eq (List.length_map _))

theorem inside_blockDeclaration {l : Line} {rest : List Line} (h : Fits k line (l :: rest)) (ha : above.length < line)
    (indent : Nat) (name : Text) (kind : SymbolKind) (exported : Bool) (container : Option Text) :
    (blockDeclaration above (l :: rest) line indent name kind exported container).lineSpan.Inside k := by
  have hspan := h.spanAbove (bodyLength_le indent l rest) (Nat.lt_of_le_of_lt (leading_le above) ha)
  rw [Int.natCast_add, ← Int.add_assoc] at hspan
  exact hspan

theorem inside_step {l : Line} {rest : List Line} (h : Fits k line (l :: rest)) (ha : above.length < line)
    (scopes : List Scope) : ∀ d ∈ (step above (l :: rest) line scopes).declaration, d.lineSpan.Inside k := by
  intro d hd
  unfold step at hd
  dsimp only at hd
  repeat' split at hd
  all_goals
    first
    | exact Option.some.inj hd ▸ inside_blockDeclaration h ha _ _ _ _ _
    | exact Option.some.inj hd ▸ h.span (headerLength_le l rest)
    | exact absurd hd (by simp)

theorem inside_declarationsFrom {scopes : List Scope} {ls : List Line} (h : Fits k line ls) (ha : above.length < line) :
    ∀ d ∈ declarationsFrom above line scopes ls, d.lineSpan.Inside k := by
  fun_induction declarationsFrom above line scopes ls with
  | case1 => exact fun _ hd => absurd hd List.not_mem_nil
  | case2 above line scopes l rest _ ih => exact ih h.tail (by simpa using ha)
  | case3 above line scopes l rest _ scopes' s ih =>
    refine List.forall_mem_append.mpr ⟨fun d hd => ?_, ih (h.drop _) (Fits.length_passed ha l rest _)⟩
    exact inside_step h ha scopes' d (Option.mem_toList.mp hd)

theorem line_namesImport (specifier : Text) (line : Nat) (t : Text) : (namesImport specifier line t).line = line := by
  unfold namesImport
  dsimp only
  split <;> rfl

theorem line_plainImports {t : Text} : ∀ s ∈ plainImports line t, s.line = line := by
  intro s hs
  obtain ⟨part, _, hpart⟩ := List.mem_filterMap.mp hs
  dsimp only at hpart
  split at hpart
  · exact absurd hpart (by simp)
  · exact Option.some.inj hpart ▸ rfl

theorem inside_importsFrom {ls : List Line} (h : Fits k line ls) : ∀ s ∈ importsFrom line ls, IsLine k s.line := by
  fun_induction importsFrom line ls with
  | case1 => exact fun _ hs => absurd hs List.not_mem_nil
  | case2 line l rest t m hm ih =>
    refine List.forall_mem_append.mpr ⟨fun s hs => ?_, ih h.tail⟩
    rw [line_plainImports s hs]
    exact h.isLine
  | case3 line l rest t _ _ ih => exact ih h.tail
  | case4 line l rest t _ m hm names names' n hn ih =>
    refine List.forall_mem_cons.mpr ⟨?_, ih (h.drop n)⟩
    rw [line_namesImport]
    exact h.isLine

theorem inside_outline (path text : Text) : (outline path text).Inside := by
  have hfits : Fits (lineCount text) 1
      (((Text.lines text).zip (Mask.indented (Text.lines text))).map fun e => Line.mk e.1 e.2) := by
    refine .of_length_le ?_
    rw [List.length_map, List.length_zip]
    exact Nat.min_le_left _ _
  refine ⟨fun d hd => ?_, inside_importsFrom hfits, hfits.calls fun _ _ => line_calls fun _ => rfl⟩
  obtain ⟨d', hd', rfl⟩ := List.mem_map.mp hd
  have hspan := inside_declarationsFrom hfits (show ([] : List Line).length < 1 from Nat.one_pos) d' hd'
  unfold withExports
  split <;> exact hspan

end Python

section LineCount

theorem length_splitOn (sep : UInt16) (t : Text) : (splitOn sep t).length ≤ t.length + 1 := by
  induction t with
  | nil => exact Nat.le_refl _
  | cons u rest ih =>
    rw [splitOn]
    split
    · rw [List.length_cons, List.length_cons]
      omega
    · split
      · simp
      · next hs =>
        rw [hs, List.length_cons] at ih
        rw [List.length_cons, List.length_cons]
        omega

theorem length_dropLastEmpty (ts : List Text) : (dropLastEmpty ts).length ≤ ts.length := by
  fun_induction dropLastEmpty ts with
  | case1 => exact Nat.le_refl _
  | case2 => exact Nat.zero_le _
  | case3 => exact Nat.le_refl _
  | case4 t u rest ih => exact Nat.succ_le_succ ih

theorem lineCount_le (t : Text) : lineCount t ≤ t.length + 1 := by
  unfold lineCount Text.lines
  split
  · exact Nat.zero_le _
  · refine Nat.le_trans (length_dropLastEmpty _) ?_
    rw [List.length_map]
    exact length_splitOn _ t

end LineCount

namespace Script
variable {text : Text}

theorem lineAt_le (text : Text) (pos : Nat) : (Source.ofText text).lineAt pos ≤ text.length + 1 := by
  refine Nat.succ_le_succ (Nat.le_trans (List.takeWhile_sublist _).length_le ?_)
  refine Nat.le_trans (List.length_filterMap_le _ _) (Nat.le_of_eq List.length_zipIdx)

theorem within_span (text : Text) (n : Node) : ((Source.ofText text).span n).Within (text.length + 1) :=
  ⟨lineAt_le text _, lineAt_le text _⟩

structure Part.Within (k : Nat) (p : Part) : Prop where
  declarations : ∀ d ∈ p.declarations, d.lineSpan.Within k
  imports : ∀ s ∈ p.imports, s.line.natAbs ≤ k

theorem Part.within_empty (k : Nat) : Part.empty.Within k :=
  ⟨fun _ hd => absurd hd List.not_mem_nil, fun _ hs => absurd hs List.not_mem_nil⟩

theorem Part.within_concat {k : Nat} {ps : List Part} (h : ∀ p ∈ ps, p.Within k) : (Part.concat ps).Within k := by
  induction ps with
  | nil => exact Part.within_empty k
  | cons p rest ih =>
    obtain ⟨hp, hrest⟩ := List.forall_mem_cons.mp h
    have ih := ih hrest
    exact ⟨List.forall_mem_append.mpr ⟨hp.declarations, ih.declarations⟩,
      List.forall_mem_append.mpr ⟨hp.imports, ih.imports⟩⟩

theorem within_members (container : Text) (exported : Bool) (parts : List Node) :
    ∀ d ∈ members (Source.ofText text) container exported parts, d.lineSpan.Within (text.length + 1) := by
  refine List.forall_mem_append.mpr ⟨fun d hd => ?_, fun d hd => ?_⟩
  all_goals
    obtain ⟨n, _, hn⟩ := List.mem_filterMap.mp hd
    split at hn
    · exact Option.some.inj hn ▸ within_span text n
    · exact absurd hn (by simp)

theorem within_declared (exported : Exported) (n : Node) (kind : DeclarationKind) (title : Text) (modifiers : List Text)
    (body : Option Nat) :
    (declared (Source.ofText text) exported n kind title modifiers body).Within (text.length + 1) := by
  refine ⟨List.forall_mem_cons.mpr ⟨within_span text n, ?_⟩, fun _ hs => absurd hs List.not_mem_nil⟩
  split
  · exact within_members _ _ _
  · exact fun _ hd => absurd hd List.not_mem_nil

theorem within_declarationPart (exported : Exported) (n : Node) (kind : DeclarationKind) (title : Option Text)
    (modifiers : List Text) (body : Option Nat) :
    (declarationPart (Source.ofText text) exported n kind title modifiers body).Within (text.length + 1) := by
  unfold declarationPart
  repeat' split
  all_goals
    first
    | exact Part.within_empty _
    | exact within_declared _ _ _ _ _ _

theorem within_variablePart (statement : Node) (keyword : Text) (exported alone : Bool) (n : Node) :
    (variablePart (Source.ofText text) statement keyword exported alone n).Within (text.length + 1) := by
  unfold variablePart
  split
  · dsimp only
    split
    · refine ⟨fun _ hd => absurd hd List.not_mem_nil, fun s hs => ?_⟩
      dsimp only at hs
      unfold requiredImport at hs
      split at hs
      · exact List.mem_singleton.mp hs ▸ lineAt_le text _
      · exact List.mem_singleton.mp hs ▸ lineAt_le text _
      · exact absurd hs List.not_mem_nil
    · split
      · exact Part.within_empty _
      · exact ⟨fun d hd => List.mem_singleton.mp hd ▸ within_span text _, fun _ hs => absurd hs List.not_mem_nil⟩
  · exact Part.within_empty _

theorem within_statementPart {exported : Exported} {n : Node} {p : Part}
    (h : statementPart (Source.ofText text) exported n = .ok p) : p.Within (text.length + 1) := by
  have hempty : ∀ rows, Part.Within (text.length + 1) ⟨[], [], rows⟩ :=
    fun _ => ⟨fun _ hd => absurd hd List.not_mem_nil, fun _ hs => absurd hs List.not_mem_nil⟩
  have himport : ∀ (s : ImportStatement) (rows : List ExportRow), s.line = ((Source.ofText text).lineAt n.start : Nat) →
      Part.Within (text.length + 1) ⟨[], [s], rows⟩ := by
    intro s rows hs
    refine ⟨fun _ hd => absurd hd List.not_mem_nil, fun s' hs' => ?_⟩
    rw [List.mem_singleton.mp hs', hs]
    exact lineAt_le text _
  unfold statementPart at h
  dsimp only at h
  split at h
  · split at h
    · exact absurd h (by simp [throw, throwThe, MonadExceptOf.throw])
    · exact Except.ok.inj h ▸ himport _ _ rfl
  · exact Except.ok.inj h ▸ himport _ _ rfl
  · exact Except.ok.inj h ▸ hempty _
  · exact Except.ok.inj h ▸ hempty _
  · exact Except.ok.inj h ▸ within_declarationPart _ _ _ _ _ _
  · obtain rfl := Except.ok.inj h
    refine Part.within_concat fun p hp => ?_
    obtain ⟨v, _, rfl⟩ := List.mem_map.mp hp
    exact within_variablePart _ _ _ _ _
  · exact Except.ok.inj h ▸ Part.within_empty _

theorem within_outline {path : Text} {o : Outline} (h : outline path text = .ok o) : o.Within (text.length + 1) := by
  rw [outline, bind_eq_ok] at h
  obtain ⟨ps, hps, h⟩ := h
  obtain rfl := Except.ok.inj h
  have hparts : (Part.concat ps).Within (text.length + 1) := Part.within_concat fun p hp => by
    obtain ⟨n, _, hn⟩ := mem_of_mapM_ok hps hp
    exact within_statementPart hn
  refine ⟨lineCount_le text, hparts.declarations, List.forall_mem_append.mpr ⟨hparts.imports, fun s hs => ?_⟩,
    fun c hc => ?_⟩
  · obtain ⟨n, _, hn⟩ := List.mem_filterMap.mp hs
    unfold dynamicImport? at hn
    split at hn
    · obtain ⟨t, _, rfl⟩ := Option.map_eq_some_iff.mp hn
      exact lineAt_le text _
    · exact absurd hn (by simp)
  · obtain ⟨n, _, hn⟩ := List.mem_filterMap.mp hc
    unfold callSite? at hn
    split at hn
    · exact absurd hn (by simp)
    split at hn
    · obtain ⟨t, _, rfl⟩ := Option.map_eq_some_iff.mp hn
      exact lineAt_le text _
    · obtain ⟨t, _, rfl⟩ := Option.map_eq_some_iff.mp hn
      exact lineAt_le text _
    · exact absurd hn (by simp)

end Script

theorem Outline.Within.mono {k k' : Nat} {o : Outline} (h : o.Within k) (hk : k ≤ k') : o.Within k' where
  lineCount := Nat.le_trans h.lineCount hk
  declarations := fun d hd => ⟨Nat.le_trans (h.declarations d hd).1 hk, Nat.le_trans (h.declarations d hd).2 hk⟩
  imports := fun s hs => Nat.le_trans (h.imports s hs) hk
  calls := fun c hc => Nat.le_trans (h.calls c hc) hk

theorem Outline.within_ofLines (text : Text) : (ofLines text).Within (Text.lineCount text) :=
  ⟨Nat.le_refl _, fun _ hd => absurd hd List.not_mem_nil, fun _ hs => absurd hs List.not_mem_nil,
    fun _ hc => absurd hc List.not_mem_nil⟩

/-- Every extractor of its own numbers lines by the text. -/
theorem Extractor.within_builtIn {e : Extractor} (he : e ∈ builtIn) {path text : Text} {o : Outline}
    (h : e.outline path text = .ok o) : o.Within (text.length + 1) := by
  simp only [builtIn, List.mem_cons, List.not_mem_nil, or_false] at he
  obtain rfl | rfl | rfl | rfl | rfl := he
  · exact Script.within_outline h
  · exact Except.ok.inj h ▸ (Python.inside_outline path text).within.mono (lineCount_le text)
  · exact Except.ok.inj h ▸ (Go.inside_outline text).within.mono (lineCount_le text)
  · exact Except.ok.inj h ▸ (Rust.inside_outline text).within.mono (lineCount_le text)
  · exact Except.ok.inj h ▸ (Java.inside_outline text).within.mono (lineCount_le text)

end AnnotationIndex
