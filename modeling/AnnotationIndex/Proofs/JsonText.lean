import AnnotationIndex.Proofs.KeyOrder
import AnnotationIndex.Proofs.NumberText
import AnnotationIndex.Proofs.Segments
import AnnotationIndex.Proofs.StringText
import Mathlib.Data.List.Forall2

/-!
Values read back from their canonical text.
-/
namespace AnnotationIndex.Json
open AnnotationIndex.Text (unit isDigit sortByKey)

section Space

theorem skipSpace_newline (indent : Nat) (t : Text) : skipSpace (newline indent ++ t) = skipSpace t := by
  unfold newline
  split <;> rfl

theorem skipSpace_spaces (n : Nat) (t : Text) : skipSpace (Text.spaces n ++ t) = skipSpace t :=
  List.dropWhile_append_of_pos fun a ha => by
    rw [List.eq_of_mem_replicate ha]
    rfl

theorem skipSpace_cons {u : UInt16} (h : isSpace u = false) (t : Text) : skipSpace (u :: t) = u :: t :=
  List.dropWhile_cons_of_neg (by simp [h])

theorem readValue_congr {s t : Text} (h : skipSpace s = skipSpace t) (fuel : Nat) :
    readValue fuel s = readValue fuel t := by
  cases fuel with
  | zero => rw [readValue, readValue]
  | succ n => rw [readValue, readValue, h]

theorem readItems_congr {s t : Text} (h : skipSpace s = skipSpace t) (fuel : Nat) :
    readItems fuel s = readItems fuel t := by
  cases fuel with
  | zero => rw [readItems, readItems]
  | succ n => rw [readItems, readItems, readValue_congr h]

theorem readFields_congr {s t : Text} (h : skipSpace s = skipSpace t) (fuel : Nat) :
    readFields fuel s = readFields fuel t := by
  cases fuel with
  | zero => rw [readFields, readFields]
  | succ n => rw [readFields, readFields, h]

def closing (indent depth : Nat) (bracket : UInt16) (rest : Text) : Text :=
  newline indent ++ (Text.spaces (indent * depth) ++ bracket :: rest)

theorem skipSpace_closing (bracket : UInt16) (h : isSpace bracket = false) (indent depth : Nat) (rest : Text) :
    skipSpace (closing indent depth bracket rest) = bracket :: rest := by
  rw [closing, skipSpace_newline, skipSpace_spaces, skipSpace_cons h]

theorem ends_closing {bracket : UInt16}
    (h : isDigit bracket = false ∧ bracket ≠ unit '.' ∧ bracket ≠ unit 'e' ∧ bracket ≠ unit 'E') (indent depth : Nat)
    (rest : Text) : Ends (closing indent depth bracket rest) := by
  unfold closing newline
  split
  · next hzero =>
    rw [hzero, Nat.zero_mul]
    exact ends_cons h
  · exact ends_cons (by decide)

end Space

structure ReadAs (t : Text) (v : Json) : Prop where
  opens : ∃ u s, t = u :: s ∧ isSpace u = false ∧ u ≠ unit ']'
  read : ∀ fuel rest, 2 * t.length ≤ fuel → Ends rest → readValue fuel (t ++ rest) = some (v, rest)

section Members
variable {indent depth : Nat} {rest : Text}

/-- The members of an array, each on its line, are read as the items. -/
theorem readItems_join (inner : Nat) {ts : List Text} {vs : List Json} (h : List.Forall₂ ReadAs ts vs) (hne : ts ≠ [])
    {fuel : Nat}
    (hf : 2 * (Text.join (unit ',' :: newline indent) (ts.map (Text.spaces inner ++ ·))).length + 1 ≤ fuel) :
    readItems fuel (Text.join (unit ',' :: newline indent) (ts.map (Text.spaces inner ++ ·)) ++
      closing indent depth (unit ']') rest) = some (vs, rest) := by
  induction h generalizing fuel with
  | nil => exact absurd rfl hne
  | @cons t v ts vs ht hts ih =>
    obtain ⟨n, rfl⟩ : ∃ n, fuel = n + 1 := ⟨fuel - 1, by omega⟩
    rw [List.map_cons] at hf ⊢
    by_cases hlast : ts = []
    · obtain rfl := hlast
      obtain rfl := List.eq_nil_of_length_eq_zero hts.length_eq.symm
      rw [List.map_nil, Text.join, List.length_append] at hf
      rw [List.map_nil, Text.join, readItems, List.append_assoc, readValue_congr (skipSpace_spaces _ _),
        ht.read n _ (by omega) (ends_closing (by decide) _ _ _)]
      simp only [skipSpace_closing (unit ']') (by decide), beq_self_eq_true, if_true]
    · have hmore : ts.map (Text.spaces inner ++ ·) ≠ [] := by simpa using hlast
      rw [join_cons hmore] at hf ⊢
      simp only [List.length_append, List.length_cons] at hf
      simp only [List.append_assoc, List.cons_append]
      rw [readItems, readValue_congr (skipSpace_spaces _ _), ht.read n _ (by omega) (ends_cons (by decide))]
      simp only [skipSpace_cons (u := unit ',') (by decide)]
      rw [if_neg (by decide), if_pos (by decide), readItems_congr (skipSpace_newline _ _), ih hlast (by omega)]
      rfl

/-- A field is read up to what separates it from the next, or closes its object. -/
theorem readFields_field (inner : Nat) {key t more : Text} {v : Json} (ht : ReadAs t v) {n : Nat}
    (hf : 2 * t.length ≤ n) (hends : Ends more) {d : UInt16} (hd : skipSpace more = d :: rest) :
    readFields (n + 1) (Text.spaces inner ++ (quote key ++ colon indent ++ t) ++ more) =
      if d == unit '\x7d' then some ([(key, v)], rest)
      else if d == unit ',' then (readFields n rest).map fun r => ((key, v) :: r.1, r.2)
      else none := by
  have hquote : ∀ s, skipSpace (quote key ++ s) = unit '"' :: (quoteBody key ++ unit '"' :: s) := by
    intro s
    rw [quote, List.cons_append, List.append_assoc, skipSpace_cons (by decide)]
    rfl
  have hcolon : ∃ s, skipSpace (colon indent ++ (t ++ more)) = unit ':' :: s ∧ skipSpace s = skipSpace (t ++ more) := by
    unfold colon
    split
    · exact ⟨_, rfl, rfl⟩
    · exact ⟨_, rfl, rfl⟩
  obtain ⟨s, hs, hvalue⟩ := hcolon
  rw [readFields, List.append_assoc, skipSpace_spaces, List.append_assoc, List.append_assoc, hquote]
  simp only [beq_self_eq_true, if_true]
  rw [readString_quoteBody key _ (by simp only [List.length_append, List.length_cons]; omega)]
  simp only [hs, beq_self_eq_true, if_true]
  rw [readValue_congr hvalue, ht.read n more hf hends]
  simp only [hd]

/-- The members of an object, each on its line, are read as the fields. -/
theorem readFields_join (inner : Nat) {es : List (Text × Text)} {fs : List (Text × Json)}
    (h : List.Forall₂ (fun e f => e.1 = f.1 ∧ ReadAs e.2 f.2) es fs) (hne : es ≠ []) {fuel : Nat}
    (hf : 2 * (Text.join (unit ',' :: newline indent)
      ((es.map fun e => quote e.1 ++ colon indent ++ e.2).map (Text.spaces inner ++ ·))).length + 1 ≤ fuel) :
    readFields fuel (Text.join (unit ',' :: newline indent)
      ((es.map fun e => quote e.1 ++ colon indent ++ e.2).map (Text.spaces inner ++ ·)) ++
        closing indent depth (unit '\x7d') rest) = some (fs, rest) := by
  induction h generalizing fuel with
  | nil => exact absurd rfl hne
  | @cons e f es fs he hes ih =>
    obtain ⟨hkey, hread⟩ := he
    obtain ⟨n, rfl⟩ : ∃ n, fuel = n + 1 := ⟨fuel - 1, by omega⟩
    rw [List.map_cons, List.map_cons] at hf ⊢
    by_cases hlast : es = []
    · obtain rfl := hlast
      obtain rfl := List.eq_nil_of_length_eq_zero hes.length_eq.symm
      simp only [List.map_nil, Text.join, List.length_append] at hf ⊢
      rw [readFields_field inner hread (by omega) (ends_closing (by decide) _ _ _)
        (skipSpace_closing _ (by decide) _ _ _),
        if_pos (by decide), hkey]
    · have hmore : (es.map fun e => quote e.1 ++ colon indent ++ e.2).map (Text.spaces inner ++ ·) ≠ [] := by
        simpa using hlast
      rw [join_cons hmore] at hf ⊢
      simp only [List.length_append, List.length_cons] at hf
      rw [List.append_assoc (Text.spaces inner ++ _), List.cons_append, List.cons_append,
        readFields_field inner hread (by omega) (ends_cons (by decide)) (skipSpace_cons (by decide) _),
        if_neg (by decide), if_pos (by decide), List.append_assoc, readFields_congr (skipSpace_newline _ _),
        ih hlast (by omega), hkey]
      rfl

end Members

mutual
/-- The value that the text of a value is read as: the fields of every object are put in by their keys, and a number
that is not finite is shown as `null`. -/
def stored : Json → Json
  | null => null
  | bool b => bool b
  | num (.finite m e) => num (.finite m e)
  | num _ => null
  | str t => str t
  | arr items => arr (storedItems items)
  | obj fs => obj (Table.ofList (sortByKey (storedFields fs)))
def storedItems : List Json → List Json
  | [] => []
  | v :: rest => stored v :: storedItems rest
def storedFields : List (Text × Json) → List (Text × Json)
  | [] => []
  | (k, v) :: rest => (k, stored v) :: storedFields rest
end

theorem storedItems_eq (items : List Json) : storedItems items = items.map stored := by
  induction items with
  | nil => rfl
  | cons v rest ih => rw [storedItems, ih, List.map_cons]

theorem storedFields_eq (fs : List (Text × Json)) : storedFields fs = fs.map fun e => (e.1, stored e.2) := by
  induction fs with
  | nil => rfl
  | cons e rest ih => rw [storedFields, ih, List.map_cons]

theorem stored_arr (items : List Json) : stored (arr items) = arr (items.map stored) := by
  rw [stored, storedItems_eq]

theorem stored_obj (fs : List (Text × Json)) :
    stored (obj fs) = obj (Table.ofList ((sortByKey fs).map fun e => (e.1, stored e.2))) := by
  rw [stored, storedFields_eq, Text.sortByKey_map]

theorem stored_num {n : Number} (h : ReadsBack n) : stored (num n) = num n := by
  obtain ⟨u, s, hopen, hu⟩ := h.opens
  cases n with
  | finite m e => rfl
  | infinite negative =>
    obtain ⟨rfl, _⟩ := List.cons.inj hopen
    exact absurd hu (by decide)
  | undefined =>
    obtain ⟨rfl, _⟩ := List.cons.inj hopen
    exact absurd hu (by decide)

inductive Legible : Json → Prop
  | null : Legible null
  | bool (b : Bool) : Legible (bool b)
  | num {n : Number} : ReadsBack n → Legible (num n)
  | endless (negative : Bool) : Legible (num (.infinite negative))
  | str (t : Text) : Legible (str t)
  | arr {items : List Json} : (∀ v ∈ items, Legible v) → Legible (arr items)
  | obj {fs : List (Text × Json)} : (∀ e ∈ fs, Legible e.2) → Legible (obj fs)

inductive Storable : Json → Prop
  | null : Storable null
  | bool (b : Bool) : Storable (bool b)
  | num {n : Number} : ReadsBack n → Storable (num n)
  | str (t : Text) : Storable (str t)
  | arr {items : List Json} : (∀ v ∈ items, Storable v) → Storable (arr items)
  | obj {fs : List (Text × Json)} : (fs.map (·.1)).Nodup → (∀ e ∈ fs, Storable e.2) → Storable (obj fs)

theorem Storable.legible {v : Json} (h : v.Storable) : v.Legible := by
  induction h with
  | null => exact .null
  | bool b => exact .bool b
  | num hn => exact .num hn
  | str t => exact .str t
  | arr _ ih => exact .arr ih
  | obj _ _ ih => exact .obj ih

section Values
variable {v : Json}

theorem ReadAs.of_succ {t : Text} (hopens : ∃ u s, t = u :: s ∧ isSpace u = false ∧ u ≠ unit ']')
    (hread : ∀ n rest, 2 * t.length ≤ n + 1 → Ends rest → readValue (n + 1) (t ++ rest) = some (v, rest)) :
    ReadAs t v := by
  refine ⟨hopens, fun fuel rest hf hends => ?_⟩
  obtain ⟨u, s, rfl, _⟩ := hopens
  rw [List.length_cons] at hf
  obtain ⟨n, rfl⟩ : ∃ n, fuel = n + 1 := ⟨fuel - 1, by omega⟩
  exact hread n rest hf hends

theorem readAs_null : ReadAs "null" null :=
  .of_succ ⟨unit 'n', _, rfl, by decide, by decide⟩ fun _ _ _ _ => rfl

theorem readAs_true : ReadAs "true" (bool true) :=
  .of_succ ⟨unit 't', _, rfl, by decide, by decide⟩ fun _ _ _ _ => rfl

theorem readAs_false : ReadAs "false" (bool false) :=
  .of_succ ⟨unit 'f', _, rfl, by decide, by decide⟩ fun _ _ _ _ => rfl

theorem readAs_num {n : Number} (h : ReadsBack n) : ReadAs (numberText n) (num n) := by
  obtain ⟨u, s, hopen, hu⟩ := h.opens
  have hother : ∀ c, isDigit c = false → c ≠ unit '-' → u ≠ c := by
    rintro c hdigit hminus rfl
    cases hu with
    | inl hu => exact absurd (hdigit.symm.trans hu) (by decide)
    | inr hu => exact hminus hu
  have hspace : isSpace u = false := by
    simp only [isSpace, Bool.or_eq_false_iff, beq_eq_false_iff_ne]
    exact ⟨⟨⟨hother _ (by decide) (by decide), hother _ (by decide) (by decide)⟩, hother _ (by decide) (by decide)⟩,
      hother _ (by decide) (by decide)⟩
  have hopens : ∀ c t x, isDigit c = false → c ≠ unit '-' → (c :: t).isPrefixOf (u :: x) = false := by
    intro c t x hdigit hminus
    rw [List.isPrefixOf_cons_cons, beq_eq_false_iff_ne.mpr (hother c hdigit hminus).symm, Bool.false_and]
  refine .of_succ ⟨u, s, hopen, hspace, hother _ (by decide) (by decide)⟩ fun k rest _ hends => ?_
  have hread := h.read rest hends
  rw [hopen, List.cons_append] at hread ⊢
  rw [readValue, skipSpace_cons hspace]
  simp only [beq_iff_eq]
  rw [if_neg (hother _ (by decide) (by decide)), if_neg (hother _ (by decide) (by decide)),
    if_neg (hother _ (by decide) (by decide)), if_neg, if_neg, if_neg, hread]
  · rfl
  · exact ne_true_of_eq_false (hopens (unit 'f') "alse" _ (by decide) (by decide))
  · exact ne_true_of_eq_false (hopens (unit 't') "rue" _ (by decide) (by decide))
  · exact ne_true_of_eq_false (hopens (unit 'n') "ull" _ (by decide) (by decide))

theorem readAs_str (t : Text) : ReadAs (quote t) (str t) := by
  refine .of_succ ⟨unit '"', _, rfl, by decide, by decide⟩ fun n rest _ _ => ?_
  have hbody : quote t ++ rest = unit '"' :: (quoteBody t ++ unit '"' :: rest) := by
    rw [quote, List.cons_append, List.append_assoc]
    rfl
  rw [hbody, readValue, skipSpace_cons (by decide)]
  simp only [beq_self_eq_true, if_true]
  rw [readString_quoteBody t rest (by simp only [List.length_append, List.length_cons]; omega)]
  rfl

/-- What stands between brackets: the members, each on its line, and the closing bracket. -/
theorem enclose_append {members : List Text} (hne : members ≠ []) (openBracket closeBracket : Char) (indent depth : Nat)
    (rest : Text) : enclose openBracket closeBracket indent depth members ++ rest =
      unit openBracket :: (newline indent ++ (Text.join (unit ',' :: newline indent)
        (members.map (Text.spaces (indent * (depth + 1)) ++ ·)) ++ closing indent depth (unit closeBracket) rest)) := by
  obtain ⟨t, ts, rfl⟩ := List.exists_cons_of_ne_nil hne
  simp only [enclose, closing, List.cons_append, List.append_assoc, List.nil_append]

/-- The first member of several shows that the bracket does not close at once. -/
theorem opens_join {members : List Text} (hne : members ≠ []) {bracket : UInt16}
    (h : ∀ t ∈ members, ∃ u s, t = u :: s ∧ isSpace u = false ∧ u ≠ bracket) (indent inner : Nat) (sep more : Text) :
    ∃ u s, skipSpace (newline indent ++ (Text.join sep (members.map (Text.spaces inner ++ ·)) ++ more)) = u :: s ∧
      u ≠ bracket := by
  obtain ⟨t, ts, rfl⟩ := List.exists_cons_of_ne_nil hne
  obtain ⟨u, s, rfl, hspace, hu⟩ := h t List.mem_cons_self
  have hjoin : ∃ x, Text.join sep (((u :: s) :: ts).map (Text.spaces inner ++ ·)) = Text.spaces inner ++ u :: x := by
    cases ts with
    | nil => exact ⟨s, rfl⟩
    | cons t' ts => exact ⟨_, by rw [List.map_cons, join_cons (by simp), List.append_assoc, List.cons_append]⟩
  obtain ⟨x, hx⟩ := hjoin
  rw [skipSpace_newline, hx, List.append_assoc, skipSpace_spaces, List.cons_append, skipSpace_cons hspace]
  exact ⟨u, _, rfl, hu⟩

theorem length_enclose {members : List Text} (hne : members ≠ []) (openBracket closeBracket : Char)
    (indent depth : Nat) :
    (Text.join (unit ',' :: newline indent) (members.map (Text.spaces (indent * (depth + 1)) ++ ·))).length + 2 ≤
      (enclose openBracket closeBracket indent depth members).length := by
  have h := congrArg List.length (enclose_append hne openBracket closeBracket indent depth [])
  simp only [List.length_append, List.length_cons, List.length_nil, closing] at h
  omega

theorem readAs_arr {indent depth : Nat} {ts : List Text} {vs : List Json}
    (h : List.Forall₂ ReadAs ts vs) : ReadAs (enclose '[' ']' indent depth ts) (arr vs) := by
  by_cases hne : ts = []
  · obtain rfl := hne
    obtain rfl := List.eq_nil_of_length_eq_zero h.length_eq.symm
    exact .of_succ ⟨unit '[', _, rfl, by decide, by decide⟩ fun _ _ _ _ => rfl
  have hopen := enclose_append hne '[' ']' indent depth
  have hlen := length_enclose hne '[' ']' indent depth
  refine .of_succ ⟨unit '[', _, by simpa using hopen [], by decide, by decide⟩ fun n rest hf _ => ?_
  have hboth : List.Forall₂ (fun t v => (∃ u s, t = u :: s ∧ isSpace u = false ∧ u ≠ unit ']') ∧ ReadAs t v) ts vs :=
    h.imp fun _ _ ht => ⟨ht.opens, ht⟩
  have hmembers := ((List.forall₂_and_left _ _).mp hboth).1
  obtain ⟨u, s, hfirst, hu⟩ := opens_join hne hmembers indent (indent * (depth + 1)) (unit ',' :: newline indent)
    (closing indent depth (unit ']') rest)
  rw [hopen, readValue, skipSpace_cons (by decide)]
  simp only [hfirst]
  rw [if_neg (by decide), if_pos (by decide), if_neg (by simpa using hu), readItems_congr (skipSpace_newline _ _),
    readItems_join _ h hne (by omega)]
  rfl

theorem readAs_obj {es : List (Text × Text)} {fs : List (Text × Json)} {indent depth : Nat}
    (h : List.Forall₂ (fun e f => e.1 = f.1 ∧ ReadAs e.2 f.2) es fs) :
    ReadAs (enclose '\x7b' '\x7d' indent depth (es.map fun e => quote e.1 ++ colon indent ++ e.2))
      (obj (Table.ofList fs)) := by
  by_cases hes : es = []
  · obtain rfl := hes
    obtain rfl := List.eq_nil_of_length_eq_zero h.length_eq.symm
    exact .of_succ ⟨unit '\x7b', _, rfl, by decide, by decide⟩ fun _ _ _ _ => rfl
  have hne : es.map (fun e => quote e.1 ++ colon indent ++ e.2) ≠ [] := by simpa using hes
  have hopen := enclose_append hne '\x7b' '\x7d' indent depth
  have hlen := length_enclose hne '\x7b' '\x7d' indent depth
  refine .of_succ ⟨unit '\x7b', _, by simpa using hopen [], by decide, by decide⟩ fun n rest hf _ => ?_
  have hmembers : ∀ t ∈ es.map fun e => quote e.1 ++ colon indent ++ e.2,
      ∃ u s, t = u :: s ∧ isSpace u = false ∧ u ≠ unit '\x7d' := by
    intro t ht
    obtain ⟨e, _, rfl⟩ := List.mem_map.mp ht
    exact ⟨unit '"', _, rfl, by decide, by decide⟩
  obtain ⟨u, s, hfirst, hu⟩ := opens_join hne hmembers indent (indent * (depth + 1)) (unit ',' :: newline indent)
    (closing indent depth (unit '\x7d') rest)
  rw [hopen, readValue, skipSpace_cons (by decide)]
  simp only [hfirst]
  rw [if_neg (by decide), if_neg (by decide), if_pos (by decide), if_neg (by simpa using hu),
    readFields_congr (skipSpace_newline _ _), readFields_join _ h hes (by omega)]
  rfl

/-- The canonical text of a value is read as the value, its fields put in by their keys. -/
theorem readAs_write (h : v.Legible) (indent depth : Nat) : ReadAs (write indent depth v) v.stored := by
  induction h generalizing depth with
  | null => exact readAs_null
  | bool b =>
    cases b with
    | false => exact readAs_false
    | true => exact readAs_true
  | num hn =>
    rw [stored_num hn]
    exact readAs_num hn
  | endless negative => exact readAs_null
  | str t => exact readAs_str t
  | @arr items _ ih =>
    rw [stored_arr, write, writeItems_eq]
    refine readAs_arr ?_
    rw [List.forall₂_map_left_iff, List.forall₂_map_right_iff, List.forall₂_same]
    exact fun v hv => ih v hv (depth + 1)
  | @obj fs _ ih =>
    rw [stored_obj, write, writeFields_eq, Text.sortByKey_map]
    refine readAs_obj ?_
    rw [List.forall₂_map_left_iff, List.forall₂_map_right_iff, List.forall₂_same]
    exact fun e he => ⟨rfl, ih e ((Text.perm_sortByKey fs).subset he) (depth + 1)⟩

/-- The canonical text is read whatever stands after it, if that is blank. -/
theorem parse_stableText_append (h : v.Legible) (indent : Nat) {rest : Text} (hends : Ends rest)
    (hblank : skipSpace rest = []) : parse (stableText indent v ++ rest) = some v.stored := by
  have hread := (readAs_write h indent 0).read (2 * (stableText indent v ++ rest).length + 2) rest
    (by rw [stableText, List.length_append]; omega) hends
  rw [parse, stableText] at *
  rw [hread]
  simp only [hblank, List.isEmpty_nil, if_true]

theorem parse_stableText (h : v.Legible) (indent : Nat) : parse (stableText indent v ++ [0x0A]) = some v.stored :=
  parse_stableText_append h indent (ends_cons (by decide)) rfl

end Values

section Stored

/-- A field of a value stands in what is read back under the same key. -/
theorem get?_stored {fs : List (Text × Json)} (hn : (fs.map (·.1)).Nodup) (key : Text) :
    Table.get? (Table.ofList ((sortByKey fs).map fun e => (e.1, stored e.2))) key = (Table.get? fs key).map stored := by
  have hkeys : (((sortByKey fs).map fun e => (e.1, stored e.2)).map (·.1)).Nodup := by
    rw [List.map_map]
    exact Text.nodup_sortByKey hn
  rw [Table.get?_perm (Table.perm_ofList hkeys) hkeys]
  exact (Table.get?_mapValues (t := sortByKey fs) stored).trans
    (congrArg _ (Table.get?_perm (Text.perm_sortByKey fs) hn key))

end Stored
end AnnotationIndex.Json
