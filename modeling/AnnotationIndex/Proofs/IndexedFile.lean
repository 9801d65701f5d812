import AnnotationIndex.Index.Assembly
import Mathlib.Data.List.Forall2

/-!
What holds of the index of a file by itself: its symbols lie in the file, are listed there in order, and
are the only callers of its calls.
-/
namespace AnnotationIndex
open Text

structure IndexedFile.Owned (f : IndexedFile) : Prop where
  path : f.file.path = f.path
  listed : f.symbols.map (·.qualifiedName) = f.file.symbols
  files : ∀ s ∈ f.symbols, s.file = f.path
  keyed : ∀ s ∈ f.symbols, s.qualifiedName ≠ Table.droppedKey
  callers : ∀ c ∈ f.file.calls, ∀ q ∈ c.caller, q ∈ f.symbols.map (·.qualifiedName)

/-- A chain of steps has a result exactly if each of them has. -/
theorem bind_eq_ok {ε α β : Type} {x : Except ε α} {f : α → Except ε β} {b : β} :
    x >>= f = .ok b ↔ ∃ a, x = .ok a ∧ f a = .ok b := by
  cases x with
  | error e => simp [bind, Except.bind]
  | ok a => simp [bind, Except.bind]

theorem exists_of_isOk {ε α : Type} {x : Except ε α} (h : x.isOk = true) : ∃ a, x = .ok a := by
  cases x with
  | error e => exact absurd h Bool.false_ne_true
  | ok a => exact ⟨a, rfl⟩

theorem forall₂_of_mapM_ok {ε α β : Type} {f : α → Except ε β} {as : List α} {bs : List β}
    (h : as.mapM f = .ok bs) : List.Forall₂ (fun a b => f a = .ok b) as bs := by
  induction as generalizing bs with
  | nil =>
    obtain rfl : [] = bs := Except.ok.inj h
    exact List.Forall₂.nil
  | cons a rest ih =>
    rw [List.mapM_cons, bind_eq_ok] at h
    obtain ⟨b, ha, h⟩ := h
    obtain ⟨bs', hrest, h⟩ := bind_eq_ok.mp h
    obtain rfl : b :: bs' = bs := Except.ok.inj h
    exact List.Forall₂.cons ha (ih hrest)

theorem mem_of_forall₂ {α β : Type} {R : α → β → Prop} {as : List α} {bs : List β} (h : List.Forall₂ R as bs) {b : β}
    (hb : b ∈ bs) : ∃ a ∈ as, R a b := by
  induction h with
  | nil => exact absurd hb List.not_mem_nil
  | cons hab _ ih =>
    cases List.mem_cons.mp hb with
    | inl he => exact ⟨_, List.mem_cons_self, he ▸ hab⟩
    | inr hb =>
      obtain ⟨a, ha, hab⟩ := ih hb
      exact ⟨a, List.mem_cons_of_mem _ ha, hab⟩

theorem mem_of_mapM_ok {ε α β : Type} {f : α → Except ε β} {as : List α} {bs : List β}
    (h : as.mapM f = .ok bs) {b : β} (hb : b ∈ bs) : ∃ a ∈ as, f a = .ok b :=
  mem_of_forall₂ (forall₂_of_mapM_ok h) hb

theorem map_eq_of_mapM_ok {ε α β γ : Type} {f : α → Except ε β} {g : α → γ} {k : β → γ} {as : List α}
    {bs : List β} (h : as.mapM f = .ok bs) (hk : ∀ a b, f a = .ok b → k b = g a) : bs.map k = as.map g := by
  have hall : List.Forall₂ (fun a b => g a = k b) as bs :=
    (forall₂_of_mapM_ok h).imp fun a b hab => (hk a b hab).symm
  have hmap := List.forall₂_map_left_iff.mpr (List.forall₂_map_right_iff.mpr hall)
  rw [List.forall₂_eq_eq_eq] at hmap
  exact hmap.symm

theorem forall₂_filter_flatMap {α β : Type} {R : α → β → Prop} {p : α → Bool} {f : α → List β} {as : List α}
    (h : ∀ a ∈ as, if p a then ∃ b, f a = [b] ∧ R a b else f a = []) : List.Forall₂ R (as.filter p) (as.flatMap f) := by
  induction as with
  | nil => exact .nil
  | cons a rest ih =>
    obtain ⟨ha, hrest⟩ := List.forall_mem_cons.mp h
    rw [List.filter_cons, List.flatMap_cons]
    split at ha
    · next hp =>
      obtain ⟨b, hb, hR⟩ := ha
      rw [if_pos hp, hb]
      exact .cons hR (ih hrest)
    · next hp =>
      rw [if_neg hp, ha]
      exact ih hrest

section Symbols
variable {path : Text}

theorem length_qualifyFrom (path : Text) (taken : List Text) (ds : List Declaration) :
    (qualifyFrom path taken ds).length = ds.length := by
  induction ds generalizing taken with
  | nil => rfl
  | cons d rest ih => simp [qualifyFrom, ih]

/-- A qualified name has a colon after the path. -/
theorem colon_mem_of_mem_qualifyFrom {path q : Text} {taken : List Text} {ds : List Declaration}
    (h : q ∈ qualifyFrom path taken ds) : unit ':' ∈ q := by
  induction ds generalizing taken with
  | nil => exact nomatch h
  | cons d rest ih =>
    rw [qualifyFrom] at h
    cases List.mem_cons.mp h with
    | inl h =>
      rw [h]
      split <;> simp [plainName]
    | inr h => exact ih h

theorem length_symbolRecords (file : Text) (blocks : List AnnotatedBlock) (ds : List Declaration)
    (kinds : List LineKind) : (Association.ofBlocks file blocks ds kinds).symbolRecords.length = ds.length := by
  simp [Association.ofBlocks]

/-- A declaration becomes a symbol once its annotations have a map. -/
theorem SymbolRecord.eq_of_ofDeclaration {d : Declaration} {q : Text} {records : List AnnotationRecord}
    {s : SymbolRecord}
    (h : ofDeclaration path d q records = .ok s) : ∃ m, AnnotationMap.ofRecords records = .ok m ∧ s = {
      qualifiedName := q, name := d.name, kind := d.kind, file := path, lineSpan := d.lineSpan, exported := d.exported
      container := AnnotationMap.present d.container, signature := AnnotationMap.present d.signature
      purpose := m.purpose, constraint := Constraint.own? records, annotations := m, callers := []
      callees := [] } := by
  rw [ofDeclaration, bind_eq_ok] at h
  obtain ⟨m, hm, h⟩ := h
  exact ⟨m, hm, (Except.ok.inj h).symm⟩

theorem ofDeclaration_ok {d : Declaration} {q : Text} {records : List AnnotationRecord} {s : SymbolRecord}
    (h : SymbolRecord.ofDeclaration path d q records = .ok s) : s.qualifiedName = q ∧ s.file = path := by
  obtain ⟨m, -, rfl⟩ := SymbolRecord.eq_of_ofDeclaration h
  exact ⟨rfl, rfl⟩

/-- Declarations with their names and records become symbols of the file under these names. -/
theorem symbols_ok {ds : List Declaration} {names : List Text} {records : List (List AnnotationRecord)}
    {symbols : List SymbolRecord} (hn : names.length = ds.length) (hr : records.length = ds.length)
    (h : List.Forall₂ (fun a s => SymbolRecord.ofDeclaration path a.1 a.2.1 a.2.2 = .ok s)
      (ds.zip (names.zip records)) symbols) :
    symbols.map (·.qualifiedName) = names ∧ ∀ s ∈ symbols, s.file = path := by
  induction ds generalizing names records symbols with
  | nil =>
    obtain rfl := List.eq_nil_of_length_eq_zero hn
    cases h
    exact ⟨rfl, fun _ hs => nomatch hs⟩
  | cons d ds ih =>
    cases names with
    | nil => exact nomatch hn
    | cons n names =>
      cases records with
      | nil => exact nomatch hr
      | cons r records =>
        cases h with
        | cons hhead htail =>
          obtain ⟨hq, hf⟩ := ofDeclaration_ok hhead
          obtain ⟨hqs, hfs⟩ := ih (Nat.succ.inj hn) (Nat.succ.inj hr) htail
          exact ⟨by rw [List.map_cons, hq, hqs], List.forall_mem_cons.mpr ⟨hf, hfs⟩⟩

end Symbols

section Calls

theorem mem_of_narrow {symbols : List SymbolRecord} {line : Int} {best : Option SymbolRecord}
    {s : SymbolRecord} (h : symbols.foldl (innermost?.narrow line) best = some s) :
    s ∈ symbols ∨ best = some s := by
  induction symbols generalizing best with
  | nil => exact .inr h
  | cons a rest ih =>
    cases ih h with
    | inl hs => exact .inl (List.mem_cons_of_mem a hs)
    | inr hs =>
      unfold innermost?.narrow at hs
      split at hs
      · exact .inr hs
      · split at hs
        · exact .inl (Option.some.inj hs ▸ List.mem_cons_self)
        · split at hs
          · exact .inl (Option.some.inj hs ▸ List.mem_cons_self)
          · exact .inr hs

theorem mem_of_innermost? {symbols : List SymbolRecord} {line : Int} {q : Text}
    (h : innermost? symbols line = some q) : q ∈ symbols.map (·.qualifiedName) := by
  obtain ⟨s, hs, rfl⟩ := Option.map_eq_some_iff.mp h
  exact List.mem_map_of_mem ((mem_of_narrow hs).resolve_right nofun)

theorem caller_of_listedCalls {s : SymbolRecord} {c : CallRecord} (hc : c ∈ listedCalls s) :
    c.caller = some s.qualifiedName := by
  obtain ⟨a, _, hc⟩ := List.mem_flatMap.mp hc
  split at hc
  · obtain ⟨n, _, rfl⟩ := List.mem_map.mp hc
    rfl
  · exact nomatch hc

theorem caller_mem {sites : List CallSite} {symbols : List SymbolRecord} {c : CallRecord} {q : Text}
    (hc : c ∈ collectCalls sites symbols) (hq : c.caller = some q) : q ∈ symbols.map (·.qualifiedName) := by
  rw [collectCalls, List.mem_mergeSort, List.mem_append] at hc
  cases hc with
  | inl hc =>
    obtain ⟨site, _, rfl⟩ := List.mem_map.mp hc
    exact mem_of_innermost? hq
  | inr hc =>
    obtain ⟨s, hs, hc⟩ := List.mem_flatMap.mp hc
    rw [caller_of_listedCalls hc] at hq
    exact Option.some.inj hq ▸ List.mem_map_of_mem hs

end Calls

namespace IndexedFile

/-- The parts of an indexed file: what its text's outline gives, what belongs to the file and to each declaration of it,
and the reports. Its import edges are not known yet. -/
structure MadeOf (p text : Text) (o : Outline) (a : Association) (reports : List Diagnostic) (f : IndexedFile) :
    Prop where
  path : f.path = p
  hash : f.hash = contentHash text
  imports : f.imports = o.imports
  symbols : (o.declarations.zip ((qualify p o.declarations).zip a.symbolRecords)).mapM
    (fun d => SymbolRecord.ofDeclaration p d.1 d.2.1 d.2.2) = .ok f.symbols
  located : f.file.path = p
  language : f.file.language = Language.ofPath p
  lines : f.file.lines = o.lineCount
  annotations : AnnotationMap.ofRecords a.fileRecords = .ok f.file.annotations
  constraint : f.file.constraint = Constraint.ofFile a.fileRecords
  listed : f.file.symbols = qualify p o.declarations
  inline : f.file.inline = inlineMarkers (qualify p o.declarations) a.inline
  exports : f.file.exports = o.exports
  unlinked : f.file.imports = []
  calls : f.file.calls = collectCalls o.calls f.symbols
  diagnostics : f.file.diagnostics = if reports.isEmpty then none else some (Diagnostic.sorted reports)

variable {rules : IndexRules} {path text : Text} {f : IndexedFile}

/-- The blocks of a text, each associated with what it stands at. -/
theorem madeOf_ofText (h : ofText rules path text = .ok f) :
    let o := outlineOf rules path text
    let b := blocksOf rules path text
    let a := Association.ofBlocks path b.1 o.1.declarations
      ((CommentLine.classify (commentSyntax rules path) text).map (·.kind))
    f.MadeOf path text o.1 a (o.2 ++ b.2 ++ a.reports) := by
  simp only [ofText, bind_eq_ok] at h
  obtain ⟨symbols, hsymbols, annotations, hannotations, h⟩ := h
  obtain rfl := Except.ok.inj h
  exact ⟨rfl, rfl, rfl, hsymbols, rfl, rfl, rfl, hannotations, rfl, rfl, rfl, rfl, rfl, rfl, rfl⟩

/-- The index of a file is made of its own symbols and calls. -/
theorem owned_ofText (h : ofText rules path text = .ok f) : f.Owned ∧ f.path = path ∧ f.hash = contentHash text := by
  have made := madeOf_ofText h
  obtain ⟨hnames, hfiles⟩ := symbols_ok (length_qualifyFrom path [] _) (length_symbolRecords path _ _ _)
    (forall₂_of_mapM_ok made.symbols)
  refine ⟨⟨made.located.trans made.path.symm, hnames.trans made.listed.symm, made.path ▸ hfiles,
    fun s hs hdropped => ?_,
    fun c hc q hq => caller_mem (made.calls ▸ hc) hq⟩, made.path, made.hash⟩
  have hcolon : unit ':' ∈ s.qualifiedName :=
    colon_mem_of_mem_qualifyFrom (hnames ▸ List.mem_map_of_mem hs)
  exact absurd (hdropped ▸ hcolon) (by decide)

end IndexedFile
end AnnotationIndex
