import AnnotationIndex.Proofs.Recorded
import AnnotationIndex.Query.Response

/-!
Locks. The lock that holds at a scope is found once when its annotations are put into a map and once when its
constraint is worked out, and both find the last one. So the constraint of a file or symbol, its annotations, the
table of locks, the statistics and what a query shows of a symbol all say the same.
-/
namespace AnnotationIndex
open Text

/-- An annotation that states a level exactly if it is a lock, and then with a directive. -/
structure AnnotationRecord.Locking (a : AnnotationRecord) : Prop where
  level : a.payload.level?.isSome = true ↔ a.nameSpace = "lock"
  directive : a.nameSpace = "lock" → a.directive ≠ []

theorem Payload.eq_lock {p : Payload} {level : LockLevel} (h : p.level? = some level) : p = .lock level := by
  cases p with
  | lock l => exact congrArg Payload.lock (Option.some.inj h)
  | _ => exact absurd h (by simp [level?])

section Stated

/-- Of all namespaces only that of locks has their shape, and a level stands in for a lock's directive. -/
theorem NamespaceRule.lock_of_find? {custom : List Text} {n : Text} {rule : NamespaceRule}
    (h : find? custom n = some rule) :
    (rule.shape = .lock ↔ n = "lock") ∧ (n = "lock" → rule.standIn = some .lockLevel) := by
  have hknown : ∀ e ∈ known, (e.2.shape = .lock ↔ e.1 = "lock") ∧ (e.1 = "lock" → e.2.standIn = some .lockLevel) := by
    decide
  rw [find?, Option.or_eq_some_iff] at h
  cases h with
  | inl h => exact hknown (n, rule) (Table.mem_of_get? (t := known) h)
  | inr h =>
    obtain ⟨hnone, hcustom⟩ := h
    have hlock : n ≠ "lock" := by
      rintro rfl
      exact absurd hnone (by decide)
    split at hcustom
    · obtain rfl := Option.some.inj hcustom
      exact ⟨iff_of_false (by decide) hlock, fun heq => absurd heq hlock⟩
    · exact absurd hcustom (by simp)

/-- Only parameters of the shape of a lock are read as a level. -/
theorem ParameterShape.level?_read {shape : ParameterShape} {parameters : List Text} {value directive : Text}
    {payload : Payload}
    (h : shape.read parameters value directive = .ok payload) : payload.level?.isSome = true ↔ shape = .lock := by
  cases shape <;> simp only [read, readLock, readHack, readList] at h
  all_goals
    repeat' split at h
    all_goals cases h <;> simp [Payload.level?]

theorem AnnotatedBlock.locking_of_stated {rules : AnnotationRules} {file : Text} {b : AnnotationBlock}
    {a : AnnotationRecord} (h : Stated rules file b a) : a.Locking := by
  induction h with
  | group _ _ ih => exact ⟨ih.level, ih.directive⟩
  | @entry e _ _ h =>
    obtain ⟨rule, payload, hrule, hread, rfl⟩ := annotation_ok h
    obtain ⟨hshape, hstandIn⟩ := NamespaceRule.lock_of_find? hrule
    refine ⟨(ParameterShape.level?_read hread).trans hshape, fun hlock => ?_⟩
    obtain ⟨level, hlevel⟩ := Option.isSome_iff_exists.mp ((ParameterShape.level?_read hread).mpr (hshape.mpr hlock))
    have hrequired : rule.requiresDirective = true := by rw [NamespaceRule.requiresDirective, hstandIn hlock]; rfl
    rw [Entry.stating]
    simp only [hrequired, Bool.and_true, hstandIn hlock, Payload.eq_lock hlevel]
    split
    · cases level <;> decide
    · next hmissing => exact fun hempty => hmissing (List.isEmpty_iff.mpr hempty)

theorem IndexedFile.locking_of_kept {rules : IndexRules} {path text : Text} {a : AnnotationRecord}
    (ha : a ∈ kept rules path text) : a.Locking := by
  obtain ⟨ab, hab, ha⟩ := block_of_kept ha
  obtain ⟨b, _, _, hstated⟩ := stated_blocksOf hab
  exact AnnotatedBlock.locking_of_stated (hstated a ha)

end Stated

section Constraints
variable {as : List AnnotationRecord} {m : AnnotationMap}

theorem getLast?_filterMap {α β : Type} (f : α → Option β) (l : List α) :
    (l.filterMap f).getLast? = (l.filter fun a => (f a).isSome).getLast?.bind f := by
  induction l using List.reverseRecOn with
  | nil => rfl
  | append_singleton l a ih =>
    rw [List.filterMap_append, List.filter_append]
    cases ha : f a with
    | none => simpa [ha] using ih
    | some b => simp [ha]

/-- The last level that is stated is that of the last lock. -/
theorem Constraint.lastLock_eq (has : ∀ a ∈ as, a.Locking) : lastLock as =
    (AnnotationMap.own as "lock").getLast?.bind fun a => a.payload.level?.map fun level => (level, a.directive) := by
  have hlocks : as.filter (fun a => (a.payload.level?.map fun level =>
      (level, if a.directive.isEmpty then level.directive else a.directive)).isSome) = AnnotationMap.own as "lock" := by
    refine List.filter_congr fun a ha => ?_
    rw [Option.isSome_map, Bool.eq_iff_iff, (has a ha).level, beq_iff_eq]
  rw [lastLock, getLast?_filterMap, hlocks]
  refine Option.bind_congr fun a ha => ?_
  obtain ⟨hmem, hlock⟩ := List.mem_filter.mp (List.mem_of_getLast? ha)
  have hdirective : a.directive.isEmpty = false :=
    List.isEmpty_eq_false_iff.mpr ((has a hmem).directive (eq_of_beq hlock))
  simp only [hdirective, if_neg Bool.false_ne_true]

def Constraint.OfLock (c : Constraint) (m : AnnotationMap) : Prop :=
  ∃ a, Table.get? m "lock" = some [a] ∧ a.payload = .lock c.level ∧ a.directive = c.directive ∧ a ∈ c.contributing

/-- The constraint that annotations state is that of the lock that their map keeps. -/
theorem Constraint.own?_ofRecords (has : ∀ a ∈ as, a.Locking) (hm : AnnotationMap.ofRecords as = .ok m) :
    (own? as = none ∧ Table.get? m "lock" = none) ∨ ∃ c, own? as = some c ∧ c.OfLock m := by
  have has : ∀ a ∈ AnnotationRecord.inLineOrder as, a.Locking := fun a ha => has a (List.mem_mergeSort.mp ha)
  have hentry := (AnnotationMap.holds_ofRecords hm).entries "lock"
  have hsingle : AnnotationRecord.isMultiValued "lock" = false := by decide
  simp only [AnnotationMap.lasting, hsingle, if_neg Bool.false_ne_true] at hentry
  rw [own?, lastLock_eq has]
  cases hlast : (AnnotationMap.own (AnnotationRecord.inLineOrder as) "lock").getLast? with
  | none =>
    rw [if_pos (List.getLast?_eq_none_iff.mp hlast)] at hentry
    exact .inl ⟨rfl, hentry⟩
  | some a =>
    have hmem := List.mem_of_getLast? hlast
    have hordered := (List.mem_filter.mp hmem).1
    have hlock : a.nameSpace = "lock" := eq_of_beq (List.mem_filter.mp hmem).2
    have hsome := (has a hordered).level.mpr hlock
    obtain ⟨level, hlevel⟩ := Option.isSome_iff_exists.mp hsome
    rw [if_neg (List.ne_nil_of_mem hmem), hlast] at hentry
    rw [Option.bind_some, hlevel]
    refine .inr ⟨_, rfl, a, hentry, Payload.eq_lock hlevel, rfl, List.mem_filter.mpr ⟨hordered, ?_⟩⟩
    rw [hsome, Bool.true_or]

end Constraints

section Tables
variable {files : Table FileRecord}

theorem LockTable.ofLevel_ofFiles (files : Table FileRecord) (level : LockLevel) : (ofFiles files).ofLevel level =
    ((files.values.filter fun f => f.constraint.level = level).map (·.path)).mergeSort Text.le := by
  cases level <;> rfl

/-- Every file stands under its own level, in the order of paths. -/
theorem LockTable.mem_ofLevel (hn : files.keys.Nodup) (hk : ∀ p f, Table.get? files p = some f → f.path = p)
    (level : LockLevel) : (((ofFiles files).ofLevel level).Pairwise fun p q => lt p q = true) ∧
      ∀ p, p ∈ (ofFiles files).ofLevel level ↔ ∃ f, Table.get? files p = some f ∧ f.constraint.level = level := by
  have hpaths : files.values.map (·.path) = files.keys := by
    rw [Table.values, Table.keys, List.map_map]
    exact List.map_congr_left fun e he => hk e.1 e.2 (Table.get?_of_mem hn he)
  rw [ofLevel_ofFiles]
  constructor
  · have hnodup : ((files.values.filter fun f => f.constraint.level = level).map (·.path)).Nodup :=
      (List.filter_sublist.map _).nodup (hpaths ▸ hn)
    exact pairwise_mergeSort_of_nodup hnodup
  · intro p
    rw [List.mem_mergeSort, ← mem_sortedSet, Table.mem_names hn hk]
    simp only [decide_eq_true_eq]

end Tables

namespace ProjectIndex
open IndexedFile

/-- What an index says of locks, wherever it says it. -/
structure LocksAgree (r : ProjectIndex) : Prop where
  /-- A symbol has a constraint exactly if it has a lock, and it is that of its lock. -/
  symbol : ∀ q s, Table.get? r.symbols q = some s →
    (s.constraint = none ↔ Table.get? s.annotations "lock" = none) ∧ ∀ c, s.constraint = some c → c.OfLock s.annotations
  /-- A file is under the level of its lock, or under none. -/
  file : ∀ p f, Table.get? r.files p = some f →
    (Table.get? f.annotations "lock" = none ∧ f.constraint.level = .normal) ∨
      ∃ a, Table.get? f.annotations "lock" = some [a] ∧ a.payload = .lock f.constraint.level
  listed : ∀ level, ((r.locks.ofLevel level).Pairwise fun p q => lt p q = true) ∧
    ∀ p, p ∈ r.locks.ofLevel level ↔ ∃ f, Table.get? r.files p = some f ∧ f.constraint.level = level
  counted : ∀ level, r.statistics.lockCounts level = (r.locks.ofLevel level).length
  /-- A query of a recorded symbol finds it. -/
  found : ∀ q s, Table.get? r.symbols q = some s → ∀ settings limit,
    ∃ v, r.query settings [] .symbol q limit = .found (.symbol v) [] ∧ v.symbol = s
  /-- It shows the symbol's own constraint or else that of its file. -/
  viewed : ∀ settings changed name limit v changed',
  r.query settings changed .symbol name limit = .found (.symbol v) changed' →
    Table.get? r.symbols v.symbol.qualifiedName = some v.symbol ∧
      ((v.symbol.constraint = some v.constraint ∧ v.source = .symbol) ∨
        v.symbol.constraint = none ∧ v.source = .file ∧
          ∃ f, Table.get? r.files v.symbol.file = some f ∧ v.constraint = f.constraint)

variable {r : ProjectIndex}

theorem get?_of_findSymbol (hk : ∀ q s, Table.get? r.symbols q = some s → s.qualifiedName = q) {name : Text}
    {s : SymbolRecord} (h : r.findSymbol name = .found s) : Table.get? r.symbols s.qualifiedName = some s := by
  have hget : ∀ q, Table.get? r.symbols q = some s → Table.get? r.symbols s.qualifiedName = some s :=
    fun q hs => (hk q s hs).symm ▸ hs
  unfold findSymbol at h
  split at h
  · next hs => exact hget name (by cases h; exact hs)
  · split at h
    · cases h
    · next q _ =>
      cases hs : Table.get? r.symbols q with
      | none => rw [hs] at h; cases h
      | some s' =>
        rw [hs] at h
        cases h
        exact hget q hs
    · cases h

/-- What is shown of a symbol that is found. -/
theorem symbolView_found {name : Text} {v : SymbolView} : r.symbolView name = .found v ↔
    ∃ s f, r.findSymbol name = .found s ∧ Table.get? r.files s.file = some f ∧
      v = ⟨s, (Constraint.effective s.constraint f.constraint).1,
        (Constraint.effective s.constraint f.constraint).2⟩ := by
  rw [symbolView]
  cases r.findSymbol name with
  | found s =>
    cases hf : Table.get? r.files s.file with
    | none => simp [Finding.bind, Finding.ofOption, hf]
    | some f => simp [Finding.bind, Finding.ofOption, hf, eq_comm]
  | notFound => simp [Finding.bind]
  | ambiguous => simp [Finding.bind]

theorem query_symbol_found {settings : QuerySettings} {changed changed' : List Text} {name : Text} {limit : Option Int}
    {v : SymbolView} (h : r.query settings changed .symbol name limit = .found (.symbol v) changed') :
    r.symbolView name = .found v := by
  unfold query look QueryResult.ofFinding at h
  split at h
  · exact absurd h (by simp)
  · cases hview : r.symbolView name with
    | found v' =>
      rw [hview] at h
      cases h
      rfl
    | notFound => rw [hview] at h; cases h
    | ambiguous => rw [hview] at h; cases h

/-- In the index of a project all that is said of locks agrees. -/
theorem locksAgree_ofFiles (rules : IndexRules) (files : List (Text × Text)) (hp : (files.map (·.1)).Nodup)
    (hx : Extractor.forFile? rules.extractors Table.droppedKey = none) (r : ProjectIndex)
    (hr : ofFiles rules files = .ok r) :
    LocksAgree r := by
  have hrecorded := recorded_ofFiles rules files hp hx hr
  have htable : r.locks = LockTable.ofFiles r.files := by
    obtain ⟨fs, _, rfl⟩ := exists_indexed hr
    rw [ofIndexed_eq]
    rfl
  have hpath : ∀ p f, Table.get? r.files p = some f → f.path = p := fun p f hf => (hrecorded.file p f hf).1
  have hname : ∀ q s, Table.get? r.symbols q = some s → s.qualifiedName = q := fun q s hs => (hrecorded.symbol q s hs).1
  constructor
  case symbol =>
    intro q s hs
    obtain ⟨_, text, g, hok, s₀, hs₀, hbare⟩ := hrecorded.symbol q s hs
    have hconstraint : s.constraint = s₀.constraint := congrArg (·.constraint) hbare
    have hannotations : s.annotations = s₀.annotations := congrArg (·.annotations) hbare
    obtain ⟨records, hrecords, hmap, hown⟩ := exists_records hok hs₀
    rw [hconstraint, hannotations, hown]
    rcases Constraint.own?_ofRecords (fun a ha => locking_of_kept (hrecords a ha)) hmap with
      ⟨hnone, hlock⟩ | ⟨c, hsome, hlock⟩
    · rw [hnone]
      exact ⟨iff_of_true rfl hlock, fun c hc => absurd hc (by simp)⟩
    · rw [hsome]
      obtain ⟨a, hget, _⟩ := id hlock
      exact ⟨iff_of_false (by simp) (by simp [hget]), fun c' hc => Option.some.inj hc ▸ hlock⟩
  case file =>
    intro p f hf
    obtain ⟨_, text, g, hok, hbare⟩ := hrecorded.file p f hf
    have hconstraint : f.constraint = g.file.constraint := congrArg (·.constraint) hbare
    have hannotations : f.annotations = g.file.annotations := congrArg (·.annotations) hbare
    obtain ⟨hmap, hown, _⟩ := annotated_ofText hok
    rw [hconstraint, hannotations, hown, Constraint.ofFile]
    have hkept : ∀ a ∈ (association rules p text).fileRecords, a.Locking :=
      fun a ha => locking_of_kept (List.mem_append_left _ ha)
    rcases Constraint.own?_ofRecords hkept hmap with ⟨hnone, hlock⟩ | ⟨c, hsome, a, hget, hpayload, _⟩
    · exact .inl ⟨hlock, by rw [hnone]; rfl⟩
    · exact .inr ⟨a, hget, by rw [hsome]; exact hpayload⟩
  case listed =>
    intro level
    rw [htable]
    exact LockTable.mem_ofLevel hrecorded.files hpath level
  case counted =>
    intro level
    rw [htable, LockTable.ofLevel_ofFiles, List.length_mergeSort, List.length_map, ← List.countP_eq_length_filter]
    rfl
  case found =>
    intro q s hs settings limit
    obtain ⟨f, hf, _⟩ := hrecorded.owner q s hs
    have hview := symbolView_found.mpr ⟨s, f, by rw [findSymbol, hs], hf, rfl⟩
    exact ⟨_, by rw [query, look, hview]; rfl, rfl⟩
  case viewed =>
    intro settings changed name limit v changed' h
    obtain ⟨s, f, hs, hf, rfl⟩ := symbolView_found.mp (query_symbol_found h)
    refine ⟨get?_of_findSymbol hname hs, ?_⟩
    dsimp only
    cases s.constraint with
    | some c => exact .inl ⟨rfl, rfl⟩
    | none => exact .inr ⟨rfl, rfl, f, hf, rfl⟩

def lockedFile : List (Text × Text) := [
  ("a.ts", "// @acp:lock restricted\n\n// @acp:lock tests-required\nfunction f() {}\nfunction g() {}\n")]

theorem locksAgree_lockedFile : ∃ r, ofFiles scriptRules lockedFile = .ok r ∧ LocksAgree r ∧
    (∃ f ∈ Table.get? r.files "a.ts", f.constraint.level = .restricted) ∧
    (∃ s ∈ Table.get? r.symbols "a.ts:f", s.constraint.map (·.level) = some .testsRequired) ∧
    ∃ s ∈ Table.get? r.symbols "a.ts:g", s.constraint = none := by
  have hfacts :
      let fs := indexAll scriptRules lockedFile
      let r := ofLinked (fs.map (relinked ⟨fs.map linkUnit⟩ fun _ => true))
      (lockedFile.mapM fun e => ofText scriptRules e.1 e.2).isOk = true ∧
        fs.Pairwise (fun f g => IndexedFile.le f g = true) ∧
        (∃ f ∈ Table.get? r.files "a.ts", f.constraint.level = .restricted) ∧
        (∃ s ∈ Table.get? r.symbols "a.ts:f", s.constraint.map (·.level) = some .testsRequired) ∧
        ∃ s ∈ Table.get? r.symbols "a.ts:g", s.constraint = none := by
    decide +kernel
  obtain ⟨hok, hsorted, hheld⟩ := hfacts
  have hr := ofFiles_eq_of_sorted hok hsorted
  exact ⟨_, hr, locksAgree_ofFiles scriptRules lockedFile (by decide) (by decide) _ hr, hheld⟩

end ProjectIndex
end AnnotationIndex
