import AnnotationIndex.Proofs.Askable
import AnnotationIndex.Proofs.GlobReading
import AnnotationIndex.Proofs.Order
import AnnotationIndex.Proofs.Work

/-!
Which files a scan finds, and which ones the filter accepts. For plain globs a scan finds the files that the filter
accepts, except those below a directory that an exclude glob names without its contents: a search does not enter it,
and the filter accepts what lies in it. This is so for all readers of globs that do what is documented. They need
not agree on the directory itself whose contents a glob names, so nothing is said of a file under its path.
-/
namespace AnnotationIndex
open Text

/-- Ignore rules can be asked about a path in a directory tree. -/
theorem Path.Named.askable {path : Text} (h : Named path) : IgnoreRules.Askable path := by
  have hdots : ∀ front rest : Text, slash ∉ front → path = front ++ slash :: rest → front ∈ splitOn slash path := by
    rintro front rest hfront rfl
    rw [splitOn_append, splitOn_of_not_mem hfront]
    exact List.mem_cons_self
  rw [IgnoreRules.Askable, h.replaceUnit_eq]
  refine ⟨?_, Bool.eq_false_iff.mpr fun houtside => ?_⟩
  · rw [List.isEmpty_eq_false_iff]
    rintro rfl
    exact (h.segments [] List.mem_cons_self).1 rfl
  · simp only [IgnoreRules.isOutside, Bool.or_eq_true, beq_iff_eq] at houtside
    obtain (((rfl | rfl) | habsolute) | hdot) | hup := houtside
    · exact absurd h (by decide)
    · exact absurd h (by decide)
    · obtain ⟨rest, rfl⟩ := List.head?_eq_some_iff.mp (eq_of_beq habsolute)
      exact (h.segments [] (hdots [] rest List.not_mem_nil rfl)).1 rfl
    · obtain ⟨rest, rfl⟩ := List.isPrefixOf_iff_prefix.mp hdot
      exact absurd (h.segments "." (hdots "." rest (by decide) rfl)).2 (by decide)
    · obtain ⟨rest, rfl⟩ := List.isPrefixOf_iff_prefix.mp hup
      exact absurd (h.segments ".." (hdots ".." rest (by decide) rfl)).2 (by decide)

namespace Search
variable {reader : GlobReader} {s : Search} {ss : List Search}

theorem of_mem_merge (h : s ∈ merge ss) : ∃ s₀ ∈ ss, s.glob = s₀.glob ∧ (s.dotted = true → s₀.dotted = true) := by
  unfold merge at h
  split at h
  · obtain ⟨s₀, hs₀, rfl⟩ := List.mem_map.mp h
    refine ⟨s₀, hs₀, ?_⟩
    split
    · exact ⟨rfl, id⟩
    · exact ⟨rfl, nofun⟩
  · exact ⟨s, h, rfl, id⟩

/-- Joined searches look wherever one of them did. -/
theorem exists_mem_merge {path : Text} (h : s ∈ ss) (hlooks : s.looksAt path = true) :
    ∃ s' ∈ merge ss, s'.glob = s.glob ∧ s'.looksAt path = true := by
  unfold merge
  split
  · refine ⟨_, List.mem_map_of_mem h, ?_⟩
    split
    · exact ⟨rfl, hlooks⟩
    · exact ⟨rfl, by simp [looksAt]⟩
  · exact ⟨s, h, rfl, hlooks⟩

theorem finds_iff {barriers : List Barrier} {path : Text} : s.finds reader barriers path = true ↔
    s.looksAt path = true ∧ reader.reads s.glob path = true ∧ (∀ b ∈ barriers, reader.reads b.glob path = false) ∧
      ∀ d ∈ s.entered path, ∀ b ∈ barriers, b.shuts = true → reader.reads b.glob d = false := by
  simp [finds, and_assoc]

theorem mem_directories_of_entered {path d : Text} (h : d ∈ s.entered path) : d ∈ directories path := by
  unfold entered at h
  split at h
  · exact absurd h List.not_mem_nil
  · split at h
    · exact h
    · exact (List.mem_filter.mp h).1

end Search

namespace Configuration
open Search Glob.Brace
variable {reader : GlobReader} {c : Configuration} {globs : List Text} {path t : Text}

structure Plain (c : Configuration) : Prop where
  included : ∀ t ∈ c.included, Simple t
  excluded : ∀ t ∈ c.excluded, Simple t

instance (c : Configuration) : Decidable c.Plain :=
  decidable_of_iff ((∀ t ∈ c.included, Simple t) ∧ ∀ t ∈ c.excluded, Simple t)
    ⟨fun h => ⟨h.1, h.2⟩, fun h => ⟨h.included, h.excluded⟩⟩

/-- Whether a path is none of the directories whose contents globs name. -/
def Beside (globs : List Text) (path : Text) : Prop :=
  ∀ glob ∈ globs, ∀ g ∈ choices glob, Glob.coversInside g path = false

instance (globs : List Text) (path : Text) : Decidable (Beside globs path) :=
  inferInstanceAs (Decidable (∀ glob ∈ globs, ∀ g ∈ choices glob, Glob.coversInside g path = false))

/-- Whether a search comes to a path: it enters every directory on the way unless an exclude glob whose last name is
plain text covers it. -/
def Reaches (reader : GlobReader) (c : Configuration) (path : Text) : Prop :=
  ∃ s ∈ c.searches reader, s.looksAt path = true ∧ Glob.covers s.glob path = true ∧
    ∀ d ∈ s.entered path, ∀ glob ∈ c.excluded, ∀ g ∈ choices glob,
      GlobReader.isSingle (Path.baseName g) = true → Glob.covers g d = false

def finds (reader : GlobReader) (c : Configuration) (path : Text) : Bool :=
  (c.searches reader).any fun s => s.finds reader (c.barred reader) path

section Readers
variable (hreader : reader.Documented)
include hreader

theorem mem_expanded (h : ∀ t ∈ globs, Simple t) : t ∈ expanded reader globs ↔ ∃ glob ∈ globs, t ∈ choices glob := by
  simp only [expanded, List.mem_map, List.mem_filter, List.mem_flatMap]
  constructor
  · rintro ⟨g, ⟨⟨glob, hglob, hg⟩, -⟩, rfl⟩
    have hchoice := (hreader.mem_expand glob (h glob hglob) g).mp hg
    exact ⟨glob, hglob, by rwa [((h glob hglob).wild g hchoice).joinSlashes_eq]⟩
  · rintro ⟨glob, hglob, hg⟩
    have hwild := (h glob hglob).wild t hg
    have hne : t ≠ [] := by
      rintro rfl
      exact absurd hwild (by decide)
    exact ⟨t, ⟨⟨glob, hglob, (hreader.mem_expand glob (h glob hglob) t).mpr hg⟩, by simpa using hne⟩,
      hwild.joinSlashes_eq⟩

theorem wild_of_mem_expanded (h : ∀ t ∈ globs, Simple t) (ht : t ∈ expanded reader globs) : Glob.Wild t := by
  obtain ⟨glob, hglob, hg⟩ := (mem_expanded hreader h).mp ht
  exact (h glob hglob).wild t hg

/-- The filter matches what the expanded globs cover. -/
theorem exists_covers_iff (h : ∀ t ∈ globs, Simple t) (hpath : Path.Named path) :
    (∃ t ∈ globs, (Glob.ofText t).isMatch path = true) ↔ ∃ t ∈ expanded reader globs, Glob.covers t path = true := by
  simp only [mem_expanded hreader h]
  constructor
  · rintro ⟨glob, hglob, hmatch⟩
    obtain ⟨g, hg, hcovers⟩ := ((h glob hglob).isMatch_iff hpath).mp hmatch
    exact ⟨g, ⟨glob, hglob, hg⟩, hcovers⟩
  · rintro ⟨g, ⟨glob, hglob, hg⟩, hcovers⟩
    exact ⟨glob, hglob, ((h glob hglob).isMatch_iff hpath).mpr ⟨g, hg, hcovers⟩⟩

/-- Besides the directories whose contents they name, expanded globs are read as what they cover. -/
theorem covers_of_reads (h : ∀ t ∈ globs, Simple t) (hpath : Path.Named path) (hbeside : Beside globs path)
    (ht : t ∈ expanded reader globs) (hreads : reader.reads t path = true) : Glob.covers t path = true := by
  obtain ⟨glob, hglob, hg⟩ := (mem_expanded hreader h).mp ht
  refine (hreader.covers_of_reads t path ((h glob hglob).wild t hg) hpath hreads).resolve_right fun hinside => ?_
  exact absurd ((hbeside glob hglob t hg).symm.trans hinside) Bool.false_ne_true

end Readers

namespace Plain
variable (h : c.Plain) (hreader : reader.Documented)
include h hreader

theorem searches_eq : c.searches reader = merge ((expanded reader c.included).map (Search.ofText reader)) := by
  rw [searches, List.filter_eq_self.mpr fun t ht => ?_]
  rw [(wild_of_mem_expanded hreader h.included ht).takesBack_eq, Bool.not_false]

theorem barred_eq : c.barred reader = (expanded reader c.excluded).map Barrier.ofText := by
  have hnone : (expanded reader c.included).filter takesBack = [] := by
    rw [List.filter_eq_nil_iff]
    intro t ht
    rw [(wild_of_mem_expanded hreader h.included ht).takesBack_eq]
    exact Bool.false_ne_true
  rw [barred, hnone, List.nil_append]
  refine List.map_congr_left fun t ht => ?_
  rw [(wild_of_mem_expanded hreader h.excluded ht).takesBack_eq, if_neg Bool.false_ne_true]

theorem of_mem_searches {s : Search} (hs : s ∈ c.searches reader) :
    s.glob ∈ expanded reader c.included ∧ s.dotted = false := by
  rw [h.searches_eq hreader] at hs
  obtain ⟨s₀, hs₀, hglob, hdotted⟩ := of_mem_merge hs
  obtain ⟨t, ht, rfl⟩ := List.mem_map.mp hs₀
  refine ⟨hglob ▸ ht, Bool.eq_false_iff.mpr fun hd => ?_⟩
  have hdot : startsWith t "./" = true := hdotted hd
  exact absurd ((wild_of_mem_expanded hreader h.included ht).startsWith_dot.symm.trans hdot) Bool.false_ne_true

/-- Where no question mark stands above the last name, a search looks at all that an include glob covers. -/
theorem exists_search
    (hmarks : ∀ glob ∈ c.included, ∀ g ∈ choices glob, ∀ s ∈ (splitOn Path.slash g).dropLast, Glob.mark ∉ s)
    (ht : t ∈ expanded reader c.included) (hcovers : Glob.covers t path = true) :
    ∃ s ∈ c.searches reader, s.glob = t ∧ s.looksAt path = true := by
  rw [h.searches_eq hreader]
  refine exists_mem_merge (List.mem_map_of_mem ht) ?_
  obtain ⟨glob, hglob, hg⟩ := (mem_expanded hreader h.included).mp ht
  have hwild := (h.included glob hglob).wild t hg
  have hbase := GlobReader.isUnder_baseOf hwild (hmarks glob hglob t hg) hcovers
  rw [← hreader.base_eq t hwild (hmarks glob hglob t hg)] at hbase
  rw [Search.ofText, looksAt]
  obtain hbase | hbase := hbase <;> simp [hbase]

/-- A file that a search finds is covered and reached, and no exclude glob covers it. -/
theorem covers_of_finds (hpath : Path.Named path) (hbeside : Beside c.included path)
    (hfinds : c.finds reader path = true) :
    (∃ t ∈ expanded reader c.included, Glob.covers t path = true) ∧
      (¬ ∃ t ∈ expanded reader c.excluded, Glob.covers t path = true) ∧ c.Reaches reader path := by
  obtain ⟨s, hs, hfinds⟩ := List.any_eq_true.mp hfinds
  obtain ⟨hlooks, hreads, hbarred, hentered⟩ := finds_iff.mp hfinds
  have hs' := (h.of_mem_searches hreader hs).1
  have hcovers := covers_of_reads hreader h.included hpath hbeside hs' hreads
  have hb : ∀ t ∈ expanded reader c.excluded, Barrier.ofText t ∈ c.barred reader := fun t ht =>
    h.barred_eq hreader ▸ List.mem_map_of_mem ht
  refine ⟨⟨s.glob, hs', hcovers⟩, ?_, s, hs, hlooks, hcovers, ?_⟩
  · rintro ⟨t, ht, hcovers⟩
    have hreads := hreader.reads_of_covers t path (wild_of_mem_expanded hreader h.excluded ht) hpath hcovers
    exact absurd ((hbarred _ (hb t ht)).symm.trans hreads) Bool.false_ne_true
  · intro d hd glob hglob g hg hsingle
    have ht := (mem_expanded hreader h.excluded).mpr ⟨glob, hglob, hg⟩
    refine Bool.eq_false_iff.mpr fun hcovers => ?_
    have hreads := hreader.reads_of_covers g d (wild_of_mem_expanded hreader h.excluded ht)
      (hpath.of_mem_directories (mem_directories_of_entered hd)).1 hcovers
    have hshuts : (Barrier.ofText g).shuts = true := by rw [Barrier.ofText, hsingle, Bool.or_true]
    exact absurd ((hentered d hd _ (hb g ht) hshuts).symm.trans hreads) Bool.false_ne_true

/-- A search finds what is reached and covered by no exclude glob. -/
theorem finds_of_reaches (hpath : Path.Named path) (hbeside : Beside c.excluded path)
    (hexcluded : ¬ ∃ t ∈ expanded reader c.excluded, Glob.covers t path = true) (hreaches : c.Reaches reader path) :
    c.finds reader path = true := by
  obtain ⟨s, hs, hlooks, hcovers, hentered⟩ := hreaches
  have hwild := wild_of_mem_expanded hreader h.included (h.of_mem_searches hreader hs).1
  refine List.any_eq_true.mpr ⟨s, hs, finds_iff.mpr ⟨hlooks, hreader.reads_of_covers _ _ hwild hpath hcovers, ?_, ?_⟩⟩
  · intro b hb
    obtain ⟨t, ht, rfl⟩ := List.mem_map.mp (h.barred_eq hreader ▸ hb)
    exact Bool.eq_false_iff.mpr fun hreads =>
      hexcluded ⟨t, ht, covers_of_reads hreader h.excluded hpath hbeside ht hreads⟩
  · intro d hd b hb hshuts
    obtain ⟨t, ht, rfl⟩ := List.mem_map.mp (h.barred_eq hreader ▸ hb)
    have hwild := wild_of_mem_expanded hreader h.excluded ht
    obtain ⟨hnamed, below, hbelow, hsplit⟩ := hpath.of_mem_directories (mem_directories_of_entered hd)
    refine Bool.eq_false_iff.mpr fun hreads => ?_
    cases (Bool.or_eq_true _ _).mp hshuts with
    | inr hsingle =>
      obtain ⟨glob, hglob, hg⟩ := (mem_expanded hreader h.excluded).mp ht
      cases hreader.covers_of_reads t d hwild hnamed hreads with
      | inl hcovers => exact absurd ((hentered d hd glob hglob t hg hsingle).symm.trans hcovers) Bool.false_ne_true
      | inr hinside =>
        exact absurd ((GlobReader.isSingle_of_coversInside hinside).symm.trans hsingle) Bool.false_ne_true
    | inl hend =>
      exact hexcluded ⟨t, ht, Glob.covers_below hend (hreader.covers_of_reads t d hwild hnamed hreads) hbelow hsplit⟩

end Plain

/-- The searches find a file under its path. -/
theorem Plain.shown_eq (h : c.Plain) (hreader : reader.Documented) (hpath : Path.Named path)
    (hfinds : c.finds reader path = true) :
    replaceUnit (unit '\\') Path.slash
      (if ((c.searches reader).filter fun s => s.finds reader (c.barred reader) path).all (·.dotted) then
        ofString "./" ++ path else path) = path := by
  obtain ⟨s, hs, hfinds⟩ := List.any_eq_true.mp hfinds
  have hundotted :
      ((c.searches reader).filter fun s => s.finds reader (c.barred reader) path).all (·.dotted) = false := by
    rw [List.all_eq_false]
    refine ⟨s, List.mem_filter.mpr ⟨hs, hfinds⟩, ?_⟩
    rw [(h.of_mem_searches hreader hs).2]
    exact Bool.false_ne_true
  rw [hundotted, if_neg Bool.false_ne_true, hpath.replaceUnit_eq]

/-- The filter accepts what an include glob covers, no exclude glob covers and the ignore rules leave. -/
theorem Plain.accepts_iff (h : c.Plain) (hreader : reader.Documented) (rules : IgnoreRules) (hpath : Path.Named path) :
    (ProjectFilter.ofRules c rules).accepts path = .ok true ↔ path ≠ c.cachePath ∧
      (∃ t ∈ expanded reader c.included, Glob.covers t path = true) ∧
        (¬ ∃ t ∈ expanded reader c.excluded, Glob.covers t path = true) ∧ rules.covers path = false := by
  rw [← exists_covers_iff hreader h.included hpath, ← exists_covers_iff hreader h.excluded hpath, ProjectFilter.accepts,
    ProjectFilter.ofRules, IgnoreRules.ignores_of_askable hpath.askable, hpath.replaceUnit_eq]
  simp only [List.any_map, Function.comp_def, beq_iff_eq, ← List.any_eq_true]
  cases c.included.any fun t => (Glob.ofText t).isMatch path with
  | false => split <;> simp
  | true =>
    cases c.excluded.any fun t => (Glob.ofText t).isMatch path with
    | true => split <;> simp
    | false =>
      split
      next hcache => simp [hcache]
      next hcache => simp [hcache, Except.map]

/-- What a search finds and the ignore rules leave is accepted, unless the index is kept in it. -/
theorem Plain.accepts_of_finds (h : c.Plain) (hreader : reader.Documented) {rules : IgnoreRules}
    (hpath : Path.Named path) (hbeside : Beside c.included path)
    (hfinds : c.finds reader path = true)
    (hrules : rules.covers path = false) (hcache : path ≠ c.cachePath) :
    (ProjectFilter.ofRules c rules).accepts path = .ok true ∧ c.Reaches reader path := by
  obtain ⟨hincluded, hexcluded, hreaches⟩ := h.covers_of_finds hreader hpath hbeside hfinds
  exact ⟨(h.accepts_iff hreader rules hpath).mpr ⟨hcache, hincluded, hexcluded, hrules⟩, hreaches⟩

/-- What is accepted and reached is found, and passes what a scan does afterwards. -/
theorem Plain.finds_of_accepts (h : c.Plain) (hreader : reader.Documented) {rules : IgnoreRules}
    (hpath : Path.Named path) (hbeside : Beside c.excluded path)
    (haccepts : (ProjectFilter.ofRules c rules).accepts path = .ok true) (hreaches : c.Reaches reader path) :
    c.finds reader path = true ∧ rules.covers path = false ∧ path ≠ c.cachePath := by
  obtain ⟨hcache, -, hexcluded, hrules⟩ := (h.accepts_iff hreader rules hpath).mp haccepts
  exact ⟨h.finds_of_reaches hreader hpath hbeside hexcluded hreaches, hrules, hcache⟩

/-- All that is accepted is reached if no exclude glob has plain text as its last name, and no include glob a question
mark above its last name. -/
theorem Plain.reaches_of_accepts (h : c.Plain) (hreader : reader.Documented) {rules : IgnoreRules}
    (hlast : ∀ glob ∈ c.excluded, ∀ g ∈ choices glob, GlobReader.isSingle (Path.baseName g) = false)
    (hmarks : ∀ glob ∈ c.included, ∀ g ∈ choices glob, ∀ s ∈ (splitOn Path.slash g).dropLast, Glob.mark ∉ s)
    (hpath : Path.Named path) (haccepts : (ProjectFilter.ofRules c rules).accepts path = .ok true) :
    c.Reaches reader path := by
  obtain ⟨-, ⟨t, ht, hcovers⟩, -⟩ := (h.accepts_iff hreader rules hpath).mp haccepts
  obtain ⟨s, hs, rfl, hlooks⟩ := h.exists_search hreader hmarks ht hcovers
  refine ⟨s, hs, hlooks, hcovers, fun _ _ glob hglob g hg hsingle => ?_⟩
  exact absurd ((hlast glob hglob g hg).symm.trans hsingle) Bool.false_ne_true

end Configuration

section Scans
variable {reader : GlobReader} {disk : Disk} {root : Text} {c : Configuration} {rules : IgnoreRules}

/-- What a scan of a directory tree comes to, if no file stands where a search needs a directory: what the searches
find, the ignore rules leave and the index is not kept in. -/
theorem scanWith_eq (hreader : reader.Documented) (hplain : c.Plain) (hload : IgnoreRules.load disk root = .ok rules)
    (hnamed : ∀ path ∈ disk.pathsUnder root, Path.Named path)
    (hopen : ∀ s ∈ c.searches reader, ∀ path ∈ disk.pathsUnder root, s.blockedBy path = false) :
    scanWith reader disk root c = .ok (((((disk.pathsUnder root).filter (c.finds reader)).filter
      fun path => !rules.covers path).filter (· != c.cachePath)).mergeSort Text.le) := by
  have hglobs : c.included.any (·.isEmpty) = false := by
    rw [List.any_eq_false]
    intro t ht hempty
    exact absurd (List.isEmpty_iff.mp hempty ▸ hplain.included t ht) (by decide)
  have hunblocked : (c.searches reader).find? (fun s => (disk.pathsUnder root).any s.blockedBy) = none := by
    rw [List.find?_eq_none]
    intro s hs hblocked
    obtain ⟨path, hpath, hblocked⟩ := List.any_eq_true.mp hblocked
    exact absurd ((hopen s hs path hpath).symm.trans hblocked) Bool.false_ne_true
  have hfound : ∀ path ∈ (disk.pathsUnder root).filter (c.finds reader), Path.Named path ∧ c.finds reader path = true :=
    fun path hpath => ⟨hnamed path (List.mem_filter.mp hpath).1, (List.mem_filter.mp hpath).2⟩
  have hrules : (IgnoreRules.load disk root).mapError ScanFault.unreadable = .ok rules := by
    rw [hload]
    rfl
  unfold scanWith Configuration.found
  simp only [hrules, hglobs, hunblocked, bind, Except.bind, pure, Except.pure, Bool.false_eq_true, if_false]
  generalize hfiltered : (disk.pathsUnder root).filter (c.finds reader) = found at hfound
  change (disk.pathsUnder root).filter
    (fun path => (c.searches reader).any fun s => s.finds reader (c.barred reader) path) = found at hfiltered
  rw [hfiltered]
  have hkept : found.filterM (fun path => ((rules.ignores path).map (!·)).mapError ScanFault.ignored) =
      .ok (found.filter fun path => !rules.covers path) := by
    refine filterM_eq_ok_iff.mpr ⟨_, fun path hpath => ?_, rfl⟩
    rw [IgnoreRules.ignores_of_askable (hfound path hpath).1.askable, (hfound path hpath).1.replaceUnit_eq]
    rfl
  rw [List.map_congr_left fun path hpath => hplain.shown_eq hreader (hfound path hpath).1 (hfound path hpath).2,
    List.map_id', hkept]

/-- For plain globs, and however they are read within what is documented, a scan of a directory tree finds, sorted, the
files that the filter accepts and that a search comes to. These are all that the filter accepts if no exclude glob has
plain text as its last name and no include glob a question mark above its last name. -/
theorem mem_scan_iff (reader : GlobReader) (hreader : reader.Documented) (disk : Disk) (root : Text) (c : Configuration)
    (rules : IgnoreRules) (hplain : c.Plain) (hload : IgnoreRules.load disk root = .ok rules)
    (hdistinct : (disk.pathsUnder root).Nodup) (hnamed : ∀ path ∈ disk.pathsUnder root, Path.Named path)
    (hopen : ∀ s ∈ c.searches reader, ∀ path ∈ disk.pathsUnder root, s.blockedBy path = false) :
    ∃ found, scanWith reader disk root c = .ok found ∧ found.Pairwise (fun s t => lt s t = true) ∧
      (∀ path ∈ found, path ∈ disk.pathsUnder root) ∧
      (∀ path ∈ disk.pathsUnder root,
        (Configuration.Beside c.included path → path ∈ found →
          (ProjectFilter.ofRules c rules).accepts path = .ok true ∧ c.Reaches reader path) ∧
        (Configuration.Beside c.excluded path → (ProjectFilter.ofRules c rules).accepts path = .ok true →
          c.Reaches reader path → path ∈ found)) ∧
      ((∀ glob ∈ c.excluded, ∀ g ∈ Glob.Brace.choices glob, GlobReader.isSingle (Path.baseName g) = false) →
        (∀ glob ∈ c.included, ∀ g ∈ Glob.Brace.choices glob, ∀ s ∈ (splitOn Path.slash g).dropLast, Glob.mark ∉ s) →
        ∀ path ∈ disk.pathsUnder root, Configuration.Beside (c.included ++ c.excluded) path →
          (path ∈ found ↔ (ProjectFilter.ofRules c rules).accepts path = .ok true)) := by
  have hmem : ∀ path, path ∈ (((((disk.pathsUnder root).filter (c.finds reader)).filter
      fun path => !rules.covers path).filter (· != c.cachePath)).mergeSort Text.le) ↔
        path ∈ disk.pathsUnder root ∧ c.finds reader path = true ∧ rules.covers path = false ∧ path ≠ c.cachePath := by
    intro path
    simp only [List.mem_mergeSort, List.mem_filter, and_assoc, Bool.not_eq_true', bne_iff_ne]
  refine ⟨_, scanWith_eq hreader hplain hload hnamed hopen, ?_, fun path hpath => ((hmem path).mp hpath).1,
    fun path hpath => ⟨fun hbeside hf => ?_, fun hbeside haccepts hreaches => ?_⟩,
      fun hlast hmarks path hpath hbeside => ?_⟩
  · exact pairwise_mergeSort_of_nodup (((hdistinct.filter _).filter _).filter _)
  · obtain ⟨-, hfinds, hrules, hcache⟩ := (hmem path).mp hf
    exact hplain.accepts_of_finds hreader (hnamed path hpath) hbeside hfinds hrules hcache
  · exact (hmem path).mpr ⟨hpath, hplain.finds_of_accepts hreader (hnamed path hpath) hbeside haccepts hreaches⟩
  · obtain ⟨hincluded, hexcluded⟩ := List.forall_mem_append.mp hbeside
    rw [hmem path]
    constructor
    · rintro ⟨-, hfinds, hrules, hcache⟩
      exact (hplain.accepts_of_finds hreader (hnamed path hpath) hincluded hfinds hrules hcache).1
    · intro haccepts
      have hreaches := hplain.reaches_of_accepts hreader hlast hmarks (hnamed path hpath) haccepts
      exact ⟨hpath, hplain.finds_of_accepts hreader (hnamed path hpath) hexcluded haccepts hreaches⟩

end Scans

section Samples

def mixedDisk : Disk := ⟨[("/p/c.ts", ""), ("/p/src/a.ts", ""), ("/p/src/dist/b.ts", "")]⟩

def scripts : Configuration := { Configuration.standard with included := ["src/**/*.\x7bts,js\x7d"] }

theorem scan_mixed : ∃ found, scanWith .standard mixedDisk "/p" scripts = .ok found ∧ ofString "src/a.ts" ∈ found ∧
    ofString "c.ts" ∉ found ∧ ofString "src/dist/b.ts" ∉ found := by
  have hload : IgnoreRules.load mixedDisk "/p" = .ok (IgnoreRules.ofLines []) := rfl
  obtain ⟨found, hscan, -, -, hmem, hiff⟩ :=
    mem_scan_iff .standard GlobReader.documented_standard mixedDisk "/p" scripts
    (IgnoreRules.ofLines []) (by decide +kernel) hload (by decide +kernel) (by decide +kernel) (by decide +kernel)
  have hiff := hiff (by decide +kernel) (by decide +kernel)
  refine ⟨found, hscan, (hiff _ (by decide +kernel) (by decide +kernel)).mpr (by decide +kernel), fun hfound => ?_,
    fun hfound => ?_⟩
  · have haccepts := ((hmem "c.ts" (by decide +kernel)).1 (by decide +kernel) hfound).1
    exact absurd haccepts (by decide +kernel)
  · have haccepts := ((hmem "src/dist/b.ts" (by decide +kernel)).1 (by decide +kernel) hfound).1
    exact absurd haccepts (by decide +kernel)

/-- An exclude glob that is the name of a directory keeps a scan out, and the filter accepts what lies in it. -/
theorem scan_misses_accepted :
    let c : Configuration := { Configuration.standard with excluded := ["lib"] }
    let disk : Disk := ⟨[("/p/lib/a.ts", "")]⟩
    IgnoreRules.load disk "/p" = .ok (IgnoreRules.ofLines []) ∧ ofString "lib/a.ts" ∈ disk.pathsUnder "/p" ∧
      (ProjectFilter.ofRules c (IgnoreRules.ofLines [])).accepts "lib/a.ts" = .ok true ∧ scan disk "/p" c = .ok [] := by
  refine ⟨rfl, ?_, ?_, ?_⟩ <;> decide +kernel

end Samples
end AnnotationIndex
