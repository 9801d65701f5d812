import AnnotationIndex.Annotations.Directive
import AnnotationIndex.Proofs.LineKinds

/-!
Directive lines are read as they are written: a header, the parameters after a space each, and the directive text
after a dash between spaces. The header is split off, the rest is cut at this dash and at no dash in front of it,
and the tokens of what stands before it are the parameters.
-/
namespace AnnotationIndex
open Text

namespace Text
variable {s t : Text}

structure Trimmed (t : Text) : Prop where
  start : ∀ u ∈ t.head?, isBlank u = false
  stop : ∀ u ∈ t.getLast?, isBlank u = false

theorem trim_eq_self_iff : trim t = t ↔ Trimmed t := by
  have hend : trimEnd t = t ↔ ∀ u ∈ t.getLast?, isBlank u = false := by
    rw [show trimEnd t = List.rdropWhile isBlank t from rfl, List.rdropWhile_eq_self_iff]
    cases t using List.reverseRec <;> simp
  cases t with
  | nil => exact ⟨fun _ => ⟨nofun, nofun⟩, fun _ => rfl⟩
  | cons u rest =>
    by_cases hu : isBlank u = true
    · have hlength : (trim (u :: rest)).length ≤ rest.length := by
        obtain ⟨bs, -, hbs⟩ := trim_append_blanks rest
        have hstart : (trimStart rest).length ≤ rest.length := (List.dropWhile_suffix isBlank).length_le
        rw [trim, trimStart, List.dropWhile_cons_of_pos hu]
        exact (List.rdropWhile_prefix isBlank _).length_le.trans hstart
      constructor
      · intro h
        rw [h, List.length_cons] at hlength
        omega
      · intro h
        exact absurd (h.start u rfl) (by simp [hu])
    · have hstart : trimStart (u :: rest) = u :: rest := List.dropWhile_cons_of_neg hu
      rw [trim, hstart, hend]
      exact ⟨fun h => ⟨by simpa using hu, h⟩, Trimmed.stop⟩

theorem Trimmed.append (hs : Trimmed s) (hs' : s ≠ []) (ht : Trimmed t) (ht' : t ≠ []) (inner : Text) :
    Trimmed (s ++ (inner ++ t)) where
  start := by rw [List.head?_append_of_ne_nil _ hs']; exact hs.start
  stop := by rw [← List.append_assoc, List.getLast?_append_of_ne_nil _ ht']; exact ht.stop

theorem trim_blanks_append (front t back : Text) (hfront : ∀ u ∈ front, isBlank u = true)
    (hback : ∀ u ∈ back, isBlank u = true) : trim (front ++ (t ++ back)) = trim t := by
  have hend (s : Text) : trimEnd (s ++ back) = trimEnd s := by
    rw [trimEnd, List.reverse_append, List.dropWhile_append_of_pos fun u hu => hback u (List.mem_reverse.mp hu),
      ← trimEnd]
  rw [trim, trimStart_blanks hfront, trimStart, List.dropWhile_append]
  split
  · next h =>
    have hstart : trimStart t = [] := List.isEmpty_iff.mp h
    rw [trim, hstart, show back.dropWhile isBlank = [] from List.dropWhile_eq_nil_iff.mpr hback]
  · exact hend _

theorem isBlank_of_isLineTerminator {u : UInt16} (h : isLineTerminator u = true) : isBlank u = true := by
  simp only [isLineTerminator, Bool.or_eq_true, beq_iff_eq] at h
  rcases h with ((rfl | rfl) | rfl) | rfl <;> decide

end Text

namespace DirectiveLine

theorem not_isBlank_of_isNameUnit {u : UInt16} (h : isNameUnit u = true) : isBlank u = false := by
  rw [isNameUnit, Bool.or_eq_true, beq_iff_eq] at h
  rcases h with hword | rfl
  · exact not_isBlank_of_isWord hword
  · decide

def IsName (t : Text) : Prop := t ≠ [] ∧ t.all isNameUnit = true

instance (t : Text) : Decidable (IsName t) := inferInstanceAs (Decidable (t ≠ [] ∧ t.all isNameUnit = true))

theorem IsName.split {t rest : Text} (h : IsName t) (hrest : ∀ u ∈ rest.head?, isNameUnit u = false) :
    (t ++ rest).takeWhile isNameUnit = t ∧ (t ++ rest).dropWhile isNameUnit = rest := by
  have ht := List.all_eq_true.mp h.2
  rw [List.takeWhile_append_of_pos ht, List.dropWhile_append_of_pos ht]
  cases rest with
  | nil => exact ⟨List.append_nil t, rfl⟩
  | cons u rest =>
    have hu : ¬isNameUnit u = true := by simp [hrest u rfl]
    rw [List.takeWhile_cons_of_neg hu, List.dropWhile_cons_of_neg hu]
    exact ⟨List.append_nil t, rfl⟩

theorem IsName.trimmed {t : Text} (h : IsName t) : Trimmed t where
  start := fun u hu => not_isBlank_of_isNameUnit (List.all_eq_true.mp h.2 u (List.mem_of_mem_head? hu))
  stop := fun u hu => not_isBlank_of_isNameUnit (List.all_eq_true.mp h.2 u (List.mem_of_mem_getLast? hu))

def isWordUnit (u : UInt16) : Bool := !isBlank u && u != unit '"'

def isQuotedUnit (u : UInt16) : Bool := !isLineTerminator u && u != unit '"'

theorem of_isWordUnit {t : Text} (h : t.all isWordUnit = true) : ∀ u ∈ t, isBlank u = false ∧ u ≠ unit '"' := by
  simpa [isWordUnit] using h

theorem of_isQuotedUnit {t : Text} (h : t.all isQuotedUnit = true) :
    ∀ u ∈ t, isLineTerminator u = false ∧ u ≠ unit '"' := by
  simpa [isQuotedUnit] using h

inductive Parameter where
  | bare (word : Text) (nonempty : word ≠ []) (notDash : word ≠ [unit '-']) (plain : word.all isWordUnit = true)
  | quoted (text : Text) (plain : text.all isQuotedUnit = true)

namespace Parameter

def value : Parameter → Text
  | bare word _ _ _ => word
  | quoted text _ => text

def written : Parameter → Text
  | bare word _ _ _ => word
  | quoted text _ => unit '"' :: (text ++ [unit '"'])

theorem written_ne_nil (p : Parameter) : p.written ≠ [] := by
  cases p with
  | bare word nonempty => exact nonempty
  | quoted text => exact List.cons_ne_nil _ _

theorem trimmed_written (p : Parameter) : Trimmed p.written := by
  cases p with
  | bare word _ _ plain =>
    have hword := of_isWordUnit plain
    exact ⟨fun u hu => (hword u (List.mem_of_mem_head? hu)).1, fun u hu => (hword u (List.mem_of_mem_getLast? hu)).1⟩
  | quoted text =>
    have hquote : Trimmed [unit '"'] := trim_eq_self_iff.mp (by decide)
    exact hquote.append (List.cons_ne_nil _ _) hquote (List.cons_ne_nil _ _) text

theorem not_isLineTerminator_of_mem_written (p : Parameter) : ∀ u ∈ p.written, isLineTerminator u = false := by
  cases p with
  | bare word _ _ plain =>
    exact fun u hu => Bool.eq_false_iff.mpr fun h => by
      simpa [isBlank_of_isLineTerminator h] using (of_isWordUnit plain u hu).1
  | quoted text plain =>
    have hquote : isLineTerminator (unit '"') = false := by decide
    simpa [written, hquote, or_imp, forall_and] using fun u hu => (of_isQuotedUnit plain u hu).1

end Parameter

def spaced (ps : List Parameter) : Text := ps.flatMap fun p => 0x20 :: p.written

def dashed (directive : Text) : Text := if directive.isEmpty then [] else ofString " - " ++ directive

structure Parts where
  nameSpace : Text
  subNamespace : Option Text
  parameters : List Parameter
  directive : Text
  named : IsName nameSpace
  subNamed : ∀ t ∈ subNamespace, IsName t
  trimmed : trim directive = directive
  oneLine : directive.any isLineTerminator = false

namespace Parts

def header (p : Parts) : Text := sigil ++ (p.nameSpace ++ (p.subNamespace.map (unit ':' :: ·)).getD [])

def parameterText (p : Parts) : Text := join " " (p.parameters.map Parameter.written)

def write (p : Parts) : Text := p.header ++ (spaced p.parameters ++ dashed p.directive)

end Parts

section Tokens
variable {rest taken t : Text}

theorem tokensFrom_blank {u : UInt16} (h : isBlank u = true) (rest : Text) :
    tokensFrom .between (u :: rest) = tokensFrom .between rest := by
  have hquote : u ≠ unit '"' := Mask.ne_of_isBlank h (by decide)
  simp [tokensFrom, h, hquote]

theorem tokensFrom_word (ht : ∀ u ∈ t, isBlank u = false) (hrest : ∀ u ∈ rest.head?, isBlank u = true) (taken : Text) :
    tokensFrom (.word taken) (t ++ rest) = (taken.reverse ++ t) :: tokensFrom .between rest := by
  induction t generalizing taken with
  | nil =>
    cases rest with
    | nil => simp [tokensFrom]
    | cons u rest =>
      have hu : isBlank u = true := hrest u rfl
      rw [tokensFrom_blank hu]
      simp [tokensFrom, hu]
  | cons u t ih =>
    obtain ⟨hu, ht⟩ := List.forall_mem_cons.mp ht
    simp [tokensFrom, hu, ih ht]

theorem tokensFrom_quoted (ht : ∀ u ∈ t, u ≠ unit '"') (rest taken : Text) :
    tokensFrom (.quoted taken) (t ++ unit '"' :: rest) = (taken.reverse ++ t) :: tokensFrom .between rest := by
  induction t generalizing taken with
  | nil => simp [tokensFrom]
  | cons u t ih =>
    obtain ⟨hu, ht⟩ := List.forall_mem_cons.mp ht
    simp [tokensFrom, hu, ih ht]

/-- A written parameter is one token. -/
theorem tokensFrom_written (p : Parameter) (hrest : ∀ u ∈ rest.head?, isBlank u = true) :
    tokensFrom .between (p.written ++ rest) = p.value :: tokensFrom .between rest := by
  cases p with
  | bare word nonempty _ plain =>
    obtain ⟨u, t, rfl⟩ := List.exists_cons_of_ne_nil nonempty
    obtain ⟨⟨hu, hquote⟩, ht⟩ := List.forall_mem_cons.mp (of_isWordUnit plain)
    have hword := tokensFrom_word (fun u hu => (ht u hu).1) hrest [u]
    simpa [Parameter.written, Parameter.value, tokensFrom, hu, hquote] using hword
  | quoted text plain =>
    have hclosed : has (text ++ unit '"' :: rest) (unit '"') = true := by simp [has]
    have hquoted := tokensFrom_quoted (fun u hu => (of_isQuotedUnit plain u hu).2) rest []
    simpa [Parameter.written, Parameter.value, tokensFrom, hclosed] using hquoted

theorem tokensFrom_spaced (ps : List Parameter) : tokensFrom .between (spaced ps) = ps.map Parameter.value := by
  induction ps with
  | nil => rfl
  | cons p ps ih =>
    have hrest : ∀ u ∈ (spaced ps).head?, isBlank u = true := by cases ps <;> simp [spaced, isBlank]
    rw [spaced, List.flatMap_cons, List.cons_append, tokensFrom_blank (by decide), ← spaced, tokensFrom_written p hrest,
      ih, List.map_cons]

end Tokens

section Cut
variable {t : Text} {before : UInt16}

/-- What is no quote and no dash that stands alone is passed over. -/
theorem cutFrom_pass {u : UInt16} {rest : Text} (hquote : u ≠ unit '"')
    (hdash : u = unit '-' → isBlank before = false ∨ isBlank (rest.headD 0x20) = false) (passed : Text) :
    cutFrom false before passed (u :: rest) = cutFrom false u (u :: passed) rest := by
  rw [cutFrom, if_neg (by simpa using hquote), if_neg]
  intro h
  simp only [Bool.not_false, Bool.true_and, Bool.and_eq_true, beq_iff_eq] at h
  rcases hdash h.1.1 with hbefore | hafter
  · exact Bool.false_ne_true (hbefore.symm.trans h.1.2)
  · exact Bool.false_ne_true (hafter.symm.trans h.2)

theorem cutFrom_word (ht : ∀ u ∈ t, isBlank u = false ∧ u ≠ unit '"') (hbefore : isBlank before = false)
    (passed rest : Text) :
    ∃ before', cutFrom false before passed (t ++ rest) = cutFrom false before' (t.reverse ++ passed) rest := by
  induction t generalizing before passed with
  | nil => exact ⟨before, rfl⟩
  | cons u t ih =>
    obtain ⟨⟨hu, hquote⟩, ht⟩ := List.forall_mem_cons.mp ht
    obtain ⟨before', hcut⟩ := ih ht hu (u :: passed)
    refine ⟨before', ?_⟩
    rw [List.cons_append, cutFrom_pass hquote fun _ => .inl hbefore, hcut, List.reverse_cons, List.append_assoc]
    rfl

theorem cutFrom_quoted (ht : ∀ u ∈ t, u ≠ unit '"') (before : UInt16) (passed rest : Text) :
    cutFrom true before passed (t ++ unit '"' :: rest) =
      cutFrom false (unit '"') (unit '"' :: (t.reverse ++ passed)) rest := by
  induction t generalizing before passed with
  | nil => simp [cutFrom]
  | cons u t ih =>
    obtain ⟨hu, ht⟩ := List.forall_mem_cons.mp ht
    simpa [cutFrom, hu] using ih ht u (u :: passed)

/-- No dash of a written parameter is cut at. -/
theorem cutFrom_written (p : Parameter) (before : UInt16) (passed rest : Text) :
    ∃ before', cutFrom false before passed (p.written ++ rest) =
      cutFrom false before' (p.written.reverse ++ passed) rest := by
  cases p with
  | bare word nonempty notDash plain =>
    obtain ⟨u, t, rfl⟩ := List.exists_cons_of_ne_nil nonempty
    obtain ⟨⟨hu, hquote⟩, ht⟩ := List.forall_mem_cons.mp (of_isWordUnit plain)
    obtain ⟨before', hcut⟩ := cutFrom_word ht hu (u :: passed) rest
    -- A dash that the word starts with has the second unit of the word behind it.
    have hinside : u = unit '-' → isBlank before = false ∨ isBlank ((t ++ rest).headD 0x20) = false := by
      rintro rfl
      cases t with
      | nil => exact absurd rfl notDash
      | cons v t => exact .inr (ht v List.mem_cons_self).1
    refine ⟨before', ?_⟩
    rw [Parameter.written, List.cons_append, cutFrom_pass hquote hinside, hcut, List.reverse_cons, List.append_assoc]
    rfl
  | quoted text plain =>
    have hquoted := cutFrom_quoted (fun u hu => (of_isQuotedUnit plain u hu).2) (unit '"') (unit '"' :: passed) rest
    exact ⟨unit '"', by simpa [Parameter.written, cutFrom] using hquoted⟩

theorem cutFrom_spaced (ps : List Parameter) (before : UInt16) (passed rest : Text) :
    ∃ before', cutFrom false before passed (spaced ps ++ rest) =
      cutFrom false before' ((spaced ps).reverse ++ passed) rest := by
  induction ps generalizing before passed with
  | nil => exact ⟨before, rfl⟩
  | cons p ps ih =>
    obtain ⟨before', hp⟩ := cutFrom_written p 0x20 (0x20 :: passed) (spaced ps ++ rest)
    obtain ⟨before'', hps⟩ := ih before' (p.written.reverse ++ 0x20 :: passed)
    refine ⟨before'', ?_⟩
    have hsplit : spaced (p :: ps) = 0x20 :: (p.written ++ spaced ps) := rfl
    rw [hsplit, List.cons_append, List.append_assoc, cutFrom_pass (by decide) (fun h => absurd h (by decide)), hp,
      hps]
    simp

theorem spaced_eq {ps : List Parameter} (h : ps ≠ []) : spaced ps = 0x20 :: join " " (ps.map Parameter.written) := by
  induction ps with
  | nil => exact absurd rfl h
  | cons p ps ih =>
    have hsplit : spaced (p :: ps) = 0x20 :: (p.written ++ spaced ps) := rfl
    rw [hsplit]
    cases ps with
    | nil => simp [spaced, join]
    | cons q qs =>
      rw [ih (List.cons_ne_nil _ _)]
      simp [join, show ofString " " = [0x20] by decide]

/-- The dash in front of a directive text is cut at. -/
theorem cutFrom_dash (before : UInt16) (passed directive : Text) :
    cutFrom false before passed (ofString " - " ++ directive) = (passed.reverse ++ [0x20], 0x20 :: directive) := by
  have hdash : ofString " - " ++ directive = 0x20 :: unit '-' :: 0x20 :: directive := rfl
  have hblank : isBlank 0x20 = true := by decide
  rw [hdash, cutFrom_pass (by decide) fun h => absurd h (by decide)]
  simp [cutFrom, hblank, show unit '-' ≠ unit '"' by decide]

theorem trimmed_join {ps : List Parameter} (h : ps ≠ []) :
    Trimmed (join " " (ps.map Parameter.written)) ∧ join " " (ps.map Parameter.written) ≠ [] := by
  induction ps with
  | nil => exact absurd rfl h
  | cons p ps ih =>
    cases ps with
    | nil => exact ⟨p.trimmed_written, p.written_ne_nil⟩
    | cons q qs =>
      obtain ⟨htrimmed, hne⟩ := ih (List.cons_ne_nil _ _)
      rw [List.map_cons, List.map_cons, join, ← List.map_cons, List.append_assoc]
      exact ⟨p.trimmed_written.append p.written_ne_nil htrimmed hne _, by simp [p.written_ne_nil]⟩

theorem trim_join (ps : List Parameter) :
    trim (join " " (ps.map Parameter.written)) = join " " (ps.map Parameter.written) := by
  cases ps with
  | nil => rfl
  | cons p ps => exact trim_eq_self_iff.mpr (trimmed_join (List.cons_ne_nil p ps)).1

theorem trim_spaced (ps : List Parameter) (back : Text) (hback : ∀ u ∈ back, isBlank u = true) :
    trim (spaced ps ++ back) = join " " (ps.map Parameter.written) := by
  by_cases hempty : ps = []
  · subst hempty
    exact trim_blanks_append [] [] back nofun hback
  · rw [spaced_eq hempty]
    exact (trim_blanks_append [0x20] _ back (List.all_eq_true.mp (by decide)) hback).trans (trim_join ps)

theorem Parts.cut_write (p : Parts) :
    cut (spaced p.parameters ++ dashed p.directive) = (p.parameterText, p.directive) := by
  obtain ⟨before, hps⟩ := cutFrom_spaced p.parameters 0x20 [] (dashed p.directive)
  rw [cut, hps, List.append_nil, dashed]
  by_cases hempty : p.directive = []
  · have hparameters := trim_spaced p.parameters [] nofun
    rw [List.append_nil] at hparameters
    rw [hempty, List.isEmpty_nil, if_pos rfl, cutFrom]
    simp only [List.reverse_reverse, hparameters, parameterText]
    rfl
  · have hspace : ∀ u ∈ [0x20], isBlank u = true := List.all_eq_true.mp (by decide)
    have hdirective : trim (0x20 :: p.directive) = p.directive := by
      have htrim := trim_blanks_append [0x20] p.directive [] hspace nofun
      rw [List.append_nil] at htrim
      exact htrim.trans p.trimmed
    rw [if_neg (by simpa using hempty), cutFrom_dash]
    simp only [List.reverse_reverse, trim_spaced p.parameters [0x20] hspace, hdirective, parameterText]

end Cut

namespace Parts
variable {p : Parts}

theorem tokens_parameterText (p : Parts) : tokens p.parameterText = p.parameters.map Parameter.value := by
  rw [← tokensFrom_spaced, tokens, parameterText]
  by_cases hempty : p.parameters = []
  · rw [hempty]
    rfl
  · rw [spaced_eq hempty, tokensFrom_blank (by decide)]

theorem trim_parameterText (p : Parts) : trim p.parameterText = p.parameterText := trim_join p.parameters

theorem blank_head (p : Parts) : ∀ u ∈ (spaced p.parameters ++ dashed p.directive).head?, u = 0x20 := by
  cases p.parameters with
  | cons q qs => simp [spaced]
  | nil =>
    rw [dashed]
    split
    · nofun
    · exact fun u hu => (Option.some.inj hu).symm

theorem not_isLineTerminator_of_mem (p : Parts) :
    ∀ u ∈ spaced p.parameters ++ dashed p.directive, isLineTerminator u = false := by
  refine List.forall_mem_append.mpr ⟨fun u hu => ?_, ?_⟩
  · obtain ⟨q, -, hu⟩ := List.mem_flatMap.mp hu
    rcases List.mem_cons.mp hu with rfl | hu
    · decide
    · exact q.not_isLineTerminator_of_mem_written u hu
  · rw [dashed]
    split
    · nofun
    · have hdash : (ofString " - " ++ p.directive).any isLineTerminator = false := by
        rw [List.any_append, p.oneLine, Bool.or_false]
        decide
      simpa only [List.any_eq_false, Bool.not_eq_true] using hdash

theorem header?_write (p : Parts) :
    header? p.write = some (p.nameSpace, p.subNamespace, spaced p.parameters ++ dashed p.directive) := by
  have hhead := p.blank_head
  have hplain := p.not_isLineTerminator_of_mem
  rw [write, header]
  generalize spaced p.parameters ++ dashed p.directive = after at *
  have hstart (t : Text) : startsWith (sigil ++ t) sigil = true :=
    List.isPrefixOf_iff_prefix.mpr (List.prefix_append _ _)
  have hblank : isBlank (after.head?.getD 0x20) = true := by
    cases after with
    | nil => decide
    | cons u after =>
      rw [List.head?_cons, Option.getD_some, hhead u rfl]
      decide
  have hterminator : after.any isLineTerminator = false := by simpa using hplain
  have hunit : ∀ u ∈ after.head?, isNameUnit u = false := fun u hu => by
    rw [hhead u hu]
    decide
  rw [header?, List.append_assoc, hstart, List.drop_left, List.append_assoc]
  cases hsub : p.subNamespace with
  | none =>
    obtain ⟨htake, hdrop⟩ := p.named.split hunit
    simp only [Option.map_none, Option.getD_none, List.nil_append, htake, hdrop]
    cases after with
    | nil => simp [p.named.1, isBlank]
    | cons u after =>
      have hcolon : u ≠ unit ':' := by
        rw [hhead u rfl]
        decide
      simp_all [p.named.1]
  | some sub =>
    have hcolon : ∀ u ∈ (unit ':' :: (sub ++ after)).head?, isNameUnit u = false := by
      rintro _ ⟨⟩
      decide
    obtain ⟨htake, hdrop⟩ := p.named.split hcolon
    obtain ⟨htake', hdrop'⟩ := (p.subNamed sub hsub).split hunit
    simp [htake, hdrop, htake', hdrop', p.named.1, (p.subNamed sub hsub).1, hblank, hterminator]

theorem trimmed_header (p : Parts) : Trimmed p.header := by
  have hsigil : Trimmed sigil := trim_eq_self_iff.mp (by decide)
  have hne : sigil ≠ [] := by decide
  rw [header]
  cases hsub : p.subNamespace with
  | none => simpa using hsigil.append hne p.named.trimmed p.named.1 []
  | some sub =>
    have hname := p.subNamed sub hsub
    simpa using hsigil.append hne hname.trimmed hname.1 (p.nameSpace ++ [unit ':'])

theorem trimmed_write (p : Parts) : Trimmed p.write := by
  have hne : p.header ≠ [] := List.append_ne_nil_of_left_ne_nil (by decide) _
  rw [write, dashed]
  by_cases hempty : p.directive = []
  · rw [if_pos (by simpa using hempty), List.append_nil]
    by_cases hparameters : p.parameters = []
    · rw [hparameters, spaced, List.flatMap_nil, List.append_nil]
      exact p.trimmed_header
    · obtain ⟨htrimmed, hjoin⟩ := trimmed_join hparameters
      rw [spaced_eq hparameters]
      exact p.trimmed_header.append hne htrimmed hjoin [0x20]
  · rw [if_neg (by simpa using hempty), ← List.append_assoc (spaced _)]
    exact p.trimmed_header.append hne (trim_eq_self_iff.mp p.trimmed) hempty _

end Parts

/-- A directive line gives back what it is written from, whatever blanks stand around it. -/
theorem parse?_write (p : Parts) {front back : Text} (hfront : ∀ u ∈ front, isBlank u = true)
    (hback : ∀ u ∈ back, isBlank u = true) : parse? (front ++ (p.write ++ back)) = some
      { nameSpace := p.nameSpace, subNamespace := p.subNamespace, parameterText := p.parameterText,
        parameters := p.parameters.map Parameter.value, value := unquote p.parameterText
        directive := p.directive } := by
  have htrim : trim (front ++ (p.write ++ back)) = p.write :=
    (trim_blanks_append front p.write back hfront hback).trans (trim_eq_self_iff.mpr p.trimmed_write)
  rw [parse?, htrim, p.header?_write, Option.map_some]
  simp only [p.cut_write, p.tokens_parameterText, p.trim_parameterText]

/-- Dashes in a quoted parameter, in words and in the directive text, and an empty parameter. -/
theorem parse?_write_dashes : parse? "  @acp:lock:by-hand \"a - b\" -x \"\" -- - Ask - first\t" = some
    { nameSpace := "lock", subNamespace := some "by-hand", parameterText := "\"a - b\" -x \"\" --",
      parameters := ["a - b", "-x", "", "--"], value := "\"a - b\" -x \"\" --", directive := "Ask - first" } :=
  @parse?_write
    { nameSpace := "lock", subNamespace := some "by-hand"
      parameters := [.quoted "a - b" (by decide), .bare "-x" (by decide) (by decide) (by decide),
        .quoted "" (by decide), .bare "--" (by decide) (by decide) (by decide)]
      directive := "Ask - first", named := by decide, subNamed := fun _ h => Option.some.inj h ▸ by decide
      trimmed := by decide, oneLine := by decide }
    "  " "\t" (List.all_eq_true.mp (by decide)) (List.all_eq_true.mp (by decide))

end DirectiveLine
end AnnotationIndex
