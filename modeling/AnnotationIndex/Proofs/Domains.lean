import AnnotationIndex.Proofs.Recorded

/-!
The table of domains. It has an entry for every name that a stored annotation gives to a domain, but for the one
name that no table has as a key; the entry lists the files and symbols under that domain, and describes it by the
first directive that is there in the order of paths.
-/
namespace AnnotationIndex
open Text

section Sorted
variable {α β : Type} {t : Table α}

theorem mem_sortByKey_iff (hn : t.keys.Nodup) {p : Text} {a : α} : (p, a) ∈ sortByKey t ↔ t.get? p = some a := by
  rw [(perm_sortByKey t).mem_iff]
  exact ⟨fun he => Table.get?_of_mem hn he, Table.mem_of_get?⟩

/-- What is found first in the order of keys is found at no lesser key. -/
theorem findSome?_sortByKey (hn : t.keys.Nodup) {f : α → Option β} {b : β} :
    (sortByKey t).findSome? (fun e => f e.2) = some b ↔
      ∃ p a, t.get? p = some a ∧ f a = some b ∧ ∀ p' a', t.get? p' = some a' → lt p' p = true → f a' = none := by
  have hsorted := pairwise_sortByKey t
  have hnodup := nodup_sortByKey hn
  rw [List.findSome?_eq_some_iff]
  constructor
  · rintro ⟨before, ⟨p, a⟩, after, hsplit, ha, hbefore⟩
    have hmem : (p, a) ∈ sortByKey t := by rw [hsplit]; simp
    refine ⟨p, a, (mem_sortByKey_iff hn).mp hmem, ha, fun p' a' ha' hlt => hbefore (p', a') ?_⟩
    have hmem' := (mem_sortByKey_iff hn).mpr ha'
    rw [hsplit] at hmem' hsorted
    -- an entry that is not before has no lesser key
    refine (List.mem_append.mp hmem').resolve_right fun hafter => ?_
    obtain ⟨hle, hne⟩ := lt_iff.mp hlt
    rcases List.mem_cons.mp hafter with heq | hafter
    · exact hne (congrArg Prod.fst heq)
    · have hge := List.rel_of_pairwise_cons (List.pairwise_append.mp hsorted).2.1 hafter
      exact hne (le_antisymm hle hge)
  · rintro ⟨p, a, ha, hb, hbefore⟩
    obtain ⟨before, after, hsplit⟩ := List.append_of_mem ((mem_sortByKey_iff hn).mpr ha)
    refine ⟨before, (p, a), after, hsplit, hb, fun e he => hbefore e.1 e.2 ?_ ?_⟩
    · exact (mem_sortByKey_iff hn).mp (hsplit ▸ List.mem_append_left _ he)
    · rw [hsplit] at hsorted hnodup
      rw [List.map_append, List.nodup_append] at hnodup
      refine lt_iff.mpr ⟨(List.pairwise_append.mp hsorted).2.2 e he (p, a) List.mem_cons_self, ?_⟩
      exact hnodup.2.2 e.1 (List.mem_map_of_mem he) p (List.mem_map_of_mem List.mem_cons_self)

theorem findSome?_sortByKey_eq_none (hn : t.keys.Nodup) {f : α → Option β} :
    (sortByKey t).findSome? (fun e => f e.2) = none ↔ ∀ p a, t.get? p = some a → f a = none := by
  rw [List.findSome?_eq_none_iff]
  exact ⟨fun hnone p a ha => hnone (p, a) ((mem_sortByKey_iff hn).mpr ha),
    fun hall e he => hall e.1 e.2 ((mem_sortByKey_iff hn).mp he)⟩

end Sorted

theorem Payload.name?_eq_some {p : Payload} {n : Text} : p.name? = some n ↔ p = .name n := by
  cases p <;> simp [name?]

namespace AnnotationMap
variable {m : AnnotationMap} {n : Text}

def ofDomain (m : AnnotationMap) (n : Text) : List AnnotationRecord :=
  (ofNamespace m "domain").filter fun a => a.payload = .name n

def Under (m : AnnotationMap) (n : Text) : Prop := ∃ a ∈ ofNamespace m "domain", a.payload = .name n

theorem under_iff : m.Under n ↔ ∃ a, a ∈ m.ofDomain n := by simp [Under, ofDomain]

end AnnotationMap

section Marks
variable {files : Table FileRecord} {symbols : Table SymbolRecord} {n : Text}

theorem filter_domainMarks (m : AnnotationMap) (file : Text) (symbol : Option Text) (n : Text) :
    (domainMarks m file symbol).filter (fun mark => mark.name == n) =
      (m.ofDomain n).map fun a => ⟨n, a.directive, file, symbol⟩ := by
  rw [domainMarks, AnnotationMap.ofDomain]
  induction AnnotationMap.ofNamespace m "domain" with
  | nil => rfl
  | cons a rest ih =>
    rw [List.filterMap_cons]
    cases hname : a.payload.name? with
    | none =>
      have hother : a.payload ≠ .name n := fun heq => by rw [Payload.name?_eq_some.mpr heq] at hname; cases hname
      simpa [hother] using ih
    | some n' =>
      have hpayload := Payload.name?_eq_some.mp hname
      by_cases heq : n' = n <;> simp [hpayload, heq, ih]

def marksOf (symbols : Table SymbolRecord) (n : Text) (e : Text × FileRecord) : List DomainMark :=
  ((AnnotationMap.ofDomain e.2.annotations n).map fun a => ⟨n, a.directive, e.1, none⟩) ++
    e.2.symbols.flatMap fun q => ((Table.get? symbols q).map fun s =>
      (AnnotationMap.ofDomain s.annotations n).map fun a => DomainMark.mk n a.directive e.1 (some q)).getD []

theorem filter_allDomainMarks (files : Table FileRecord) (symbols : Table SymbolRecord) (n : Text) :
    (allDomainMarks files symbols).filter (fun mark => mark.name == n) =
      (sortByKey files).flatMap (marksOf symbols n) := by
  rw [allDomainMarks, List.filter_flatMap]
  refine List.flatMap_congr fun e _ => ?_
  rw [List.filter_append, List.filter_flatMap, filter_domainMarks, marksOf]
  refine congrArg (_ ++ ·) (List.flatMap_congr fun q _ => ?_)
  cases Table.get? symbols q with
  | none => rfl
  | some s => exact filter_domainMarks _ _ _ _

theorem mem_marksOf {e : Text × FileRecord} {mark : DomainMark} : mark ∈ marksOf symbols n e ↔
    (∃ a ∈ AnnotationMap.ofDomain e.2.annotations n, mark = ⟨n, a.directive, e.1, none⟩) ∨
      ∃ q ∈ e.2.symbols, ∃ s, Table.get? symbols q = some s ∧
        ∃ a ∈ AnnotationMap.ofDomain s.annotations n, mark = ⟨n, a.directive, e.1, some q⟩ := by
  rw [marksOf, List.mem_append, List.mem_map, List.mem_flatMap]
  refine or_congr (exists_congr fun a => and_congr_right fun _ => eq_comm)
    (exists_congr fun q => and_congr_right fun _ => ?_)
  cases Table.get? symbols q with
  | none => simp
  | some s => simp [eq_comm]

end Marks

namespace ProjectIndex
open IndexedFile
variable {r : ProjectIndex} {n : Text}

def scopes (r : ProjectIndex) (f : FileRecord) : List AnnotationMap :=
  f.annotations :: f.symbols.filterMap fun q => (Table.get? r.symbols q).map (·.annotations)

def domainDirectives (r : ProjectIndex) (n : Text) (f : FileRecord) : List Text :=
  (r.scopes f).flatMap fun m => (m.ofDomain n).map (·.directive)

theorem directives_marksOf (r : ProjectIndex) (n : Text) (e : Text × FileRecord) :
    (marksOf r.symbols n e).map (·.directive) = r.domainDirectives n e.2 := by
  rw [marksOf, domainDirectives, scopes, List.flatMap_cons, List.map_append, List.map_map, List.map_flatMap]
  refine congrArg (_ ++ ·) ?_
  induction e.2.symbols with
  | nil => rfl
  | cons q rest ih =>
    rw [List.flatMap_cons, ih, List.filterMap_cons]
    cases Table.get? r.symbols q with
    | none => rfl
    | some s => simp [Function.comp_def]

/-- What the table says of a domain: exactly the files and symbols under it, and the first directive that there is. -/
structure Describes (r : ProjectIndex) (n : Text) (d : DomainRecord) : Prop where
  name : d.name = n
  files : (d.files.Pairwise fun p q => lt p q = true) ∧ ∀ p, p ∈ d.files ↔
    ∃ f, Table.get? r.files p = some f ∧ ∃ m ∈ r.scopes f, m.Under n
  symbols : (d.symbols.Pairwise fun p q => lt p q = true) ∧ ∀ q, q ∈ d.symbols ↔
    ∃ s, Table.get? r.symbols q = some s ∧ AnnotationMap.Under s.annotations n
  described : ∀ t, d.description = some t ↔ ∃ p f, Table.get? r.files p = some f ∧
    (r.domainDirectives n f).find? (fun t => !t.isEmpty) = some t ∧
    ∀ p' f', Table.get? r.files p' = some f' → lt p' p = true → ∀ t ∈ r.domainDirectives n f', t = []
  undescribed : d.description = none ↔
    ∀ p f, Table.get? r.files p = some f → ∀ t ∈ r.domainDirectives n f, t = []

theorem under_scopes {p : Text} {f : FileRecord} :
    (∃ m ∈ r.scopes f, m.Under n) ↔ ∃ mark, mark ∈ marksOf r.symbols n (p, f) := by
  simp only [scopes, List.mem_cons, List.mem_filterMap, mem_marksOf, AnnotationMap.under_iff, exists_eq_or_imp]
  constructor
  · rintro (⟨a, ha⟩ | ⟨m, ⟨q, hq, hm⟩, a, ha⟩)
    · exact ⟨_, .inl ⟨a, ha, rfl⟩⟩
    · obtain ⟨s, hs, rfl⟩ := Option.map_eq_some_iff.mp hm
      exact ⟨_, .inr ⟨q, hq, s, hs, a, ha, rfl⟩⟩
  · rintro ⟨mark, ⟨a, ha, _⟩ | ⟨q, hq, s, hs, a, ha, _⟩⟩
    · exact .inl ⟨a, ha⟩
    · exact .inr ⟨s.annotations, ⟨q, hq, by rw [hs]; rfl⟩, a, ha⟩

section Entries
variable {rules : IndexRules} (h : Recorded rules r)
include h

theorem describes_ofMarks (n : Text) : r.Describes n (.ofMarks (allDomainMarks r.files r.symbols) n) := by
  have hempty :
      ∀ f, (r.domainDirectives n f).find? (fun t => !t.isEmpty) = none ↔ ∀ t ∈ r.domainDirectives n f, t = [] := by
    intro f
    simp [List.find?_eq_none]
  have hdescription : (DomainRecord.ofMarks (allDomainMarks r.files r.symbols) n).description =
      (sortByKey r.files).findSome? fun e => (r.domainDirectives n e.2).find? fun t => !t.isEmpty := by
    simp only [DomainRecord.ofMarks, filter_allDomainMarks, List.map_flatMap, directives_marksOf, List.find?_flatMap]
  constructor
  case name => rfl
  case files =>
    refine ⟨pairwise_sortedSet _, fun p => ?_⟩
    simp only [DomainRecord.ofMarks, filter_allDomainMarks, mem_sortedSet, List.mem_map, List.mem_flatMap]
    constructor
    · rintro ⟨mark, ⟨⟨p', f⟩, he, hmark⟩, rfl⟩
      have hfile : mark.file = p' := by
        rcases mem_marksOf.mp hmark with ⟨_, _, rfl⟩ | ⟨_, _, _, _, _, _, rfl⟩ <;> rfl
      exact ⟨f, hfile ▸ (mem_sortByKey_iff h.files).mp he, under_scopes.mpr ⟨mark, hmark⟩⟩
    · rintro ⟨f, hf, hunder⟩
      obtain ⟨mark, hmark⟩ := under_scopes.mp hunder
      refine ⟨mark, ⟨(p, f), (mem_sortByKey_iff h.files).mpr hf, hmark⟩, ?_⟩
      rcases mem_marksOf.mp hmark with ⟨_, _, rfl⟩ | ⟨_, _, _, _, _, _, rfl⟩ <;> rfl
  case symbols =>
    refine ⟨pairwise_sortedSet _, fun q => ?_⟩
    simp only [DomainRecord.ofMarks, filter_allDomainMarks, mem_sortedSet, List.mem_filterMap, List.mem_flatMap,
      AnnotationMap.under_iff]
    constructor
    · rintro ⟨mark, ⟨e, _, hmark⟩, hq⟩
      rcases mem_marksOf.mp hmark with ⟨_, _, rfl⟩ | ⟨q', _, s, hs, a, ha, rfl⟩
      · cases hq
      · obtain rfl := Option.some.inj hq
        exact ⟨s, hs, a, ha⟩
    · rintro ⟨s, hs, a, ha⟩
      obtain ⟨f, hf, hlisted⟩ := h.owner q s hs
      exact ⟨⟨n, a.directive, s.file, some q⟩, ⟨(s.file, f), (mem_sortByKey_iff h.files).mpr hf,
        mem_marksOf.mpr (.inr ⟨q, hlisted, s, hs, a, ha, rfl⟩)⟩, rfl⟩
  case described =>
    intro t
    have hfirst :=
      findSome?_sortByKey h.files (f := fun f => (r.domainDirectives n f).find? fun t => !t.isEmpty) (b := t)
    simp only [hempty] at hfirst
    rw [hdescription]
    exact hfirst
  case undescribed =>
    have hnone := findSome?_sortByKey_eq_none h.files (f := fun f => (r.domainDirectives n f).find? fun t => !t.isEmpty)
    simp only [hempty] at hnone
    rw [hdescription]
    exact hnone

theorem mem_names_allDomainMarks : n ∈ (allDomainMarks r.files r.symbols).map (·.name) ↔
    (∃ p f, Table.get? r.files p = some f ∧ AnnotationMap.Under f.annotations n) ∨
      ∃ q s, Table.get? r.symbols q = some s ∧ AnnotationMap.Under s.annotations n := by
  have hfilter : n ∈ (allDomainMarks r.files r.symbols).map (·.name) ↔
      ∃ mark, mark ∈ (allDomainMarks r.files r.symbols).filter fun mark => mark.name == n := by
    simp [List.mem_filter]
  rw [hfilter, filter_allDomainMarks]
  simp only [List.mem_flatMap, mem_marksOf, AnnotationMap.under_iff]
  constructor
  · rintro ⟨mark, ⟨p, f⟩, he, ⟨a, ha, _⟩ | ⟨q, _, s, hs, a, ha, _⟩⟩
    · exact .inl ⟨p, f, (mem_sortByKey_iff h.files).mp he, a, ha⟩
    · exact .inr ⟨q, s, hs, a, ha⟩
  · rintro (⟨p, f, hf, a, ha⟩ | ⟨q, s, hs, a, ha⟩)
    · exact ⟨_, (p, f), (mem_sortByKey_iff h.files).mpr hf, .inl ⟨a, ha, rfl⟩⟩
    · obtain ⟨f, hf, hlisted⟩ := h.owner q s hs
      exact ⟨_, (s.file, f), (mem_sortByKey_iff h.files).mpr hf, .inr ⟨q, hlisted, s, hs, a, ha, rfl⟩⟩

end Entries

/-- In the index of a project a name has an entry among the domains exactly if a file or symbol is put under that
domain and it is not the name that no table has; and every entry says of its domain what is stored. -/
theorem domains_ofFiles (rules : IndexRules) (files : List (Text × Text)) (hp : (files.map (·.1)).Nodup)
    (hx : Extractor.forFile? rules.extractors Table.droppedKey = none) (r : ProjectIndex)
    (hr : ofFiles rules files = .ok r)
    (n : Text) : (n ∈ r.domains.keys ↔ n ≠ Table.droppedKey ∧
      ((∃ p f, Table.get? r.files p = some f ∧ AnnotationMap.Under f.annotations n) ∨
        ∃ q s, Table.get? r.symbols q = some s ∧ AnnotationMap.Under s.annotations n)) ∧
      ∀ d, Table.get? r.domains n = some d → r.Describes n d := by
  have hrecorded := recorded_ofFiles rules files hp hx hr
  have htable : r.domains = Table.gather ((sortedSet ((allDomainMarks r.files r.symbols).map (·.name))).map fun n =>
      (n, DomainRecord.ofMarks (allDomainMarks r.files r.symbols) n)) := by
    obtain ⟨fs, _, rfl⟩ := exists_indexed hr
    rw [Table.gather, List.foldl_map, ofIndexed_eq]
    rfl
  constructor
  · rw [htable, Table.mem_keys_gather_iff, List.map_map, Function.comp_def, List.map_id', mem_sortedSet,
      mem_names_allDomainMarks hrecorded, and_comm]
  · intro d hd
    rw [htable] at hd
    obtain ⟨n', _, he⟩ := List.mem_map.mp (Table.mem_of_gather (Table.mem_of_get? hd))
    obtain ⟨rfl, rfl⟩ := Prod.mk.inj he
    exact describes_ofMarks hrecorded n'

def domainFile : List (Text × Text) := [("a.ts", "// @acp:domain billing - handles money\nfunction f() {}\n")]

theorem domains_domainFile : ∃ r, ofFiles scriptRules domainFile = .ok r ∧
    ∃ d, Table.get? r.domains "billing" = some d ∧ r.Describes "billing" d ∧
      d = ⟨"billing", some "handles money", ["a.ts"], ["a.ts:f"]⟩ := by
  have hfacts :
      let fs := indexAll scriptRules domainFile
      let r := ofLinked (fs.map (relinked ⟨fs.map linkUnit⟩ fun _ => true))
      (domainFile.mapM fun e => ofText scriptRules e.1 e.2).isOk = true ∧
        fs.Pairwise (fun f g => IndexedFile.le f g = true) ∧
        Table.get? r.domains "billing" = some ⟨"billing", some "handles money", ["a.ts"], ["a.ts:f"]⟩ := by
    decide +kernel
  obtain ⟨hok, hsorted, hget⟩ := hfacts
  have hr := ofFiles_eq_of_sorted hok hsorted
  exact ⟨_, hr, _, hget, (domains_ofFiles scriptRules domainFile (by decide) (by decide) _ hr _).2 _ hget, rfl⟩

def lostDomain : List (Text × Text) := [("a.ts", "// @acp:domain __proto__\n")]

theorem domains_lostDomain : ∃ r, ofFiles scriptRules lostDomain = .ok r ∧
    (∃ f, Table.get? r.files "a.ts" = some f ∧ AnnotationMap.Under f.annotations "__proto__") ∧
    ofString "__proto__" ∉ r.domains.keys := by
  have hfacts :
      let fs := indexAll scriptRules lostDomain
      let r := ofLinked (fs.map (relinked ⟨fs.map linkUnit⟩ fun _ => true))
      (lostDomain.mapM fun e => ofText scriptRules e.1 e.2).isOk = true ∧
        fs.Pairwise (fun f g => IndexedFile.le f g = true) ∧
        (∃ f ∈ Table.get? r.files "a.ts", ∃ a ∈ AnnotationMap.ofNamespace f.annotations "domain",
          a.payload = .name "__proto__") ∧
        ofString "__proto__" ∉ r.domains.keys := by
    decide +kernel
  obtain ⟨hok, hsorted, hunder, hlost⟩ := hfacts
  exact ⟨_, ofFiles_eq_of_sorted hok hsorted, hunder, hlost⟩

end ProjectIndex
end AnnotationIndex
