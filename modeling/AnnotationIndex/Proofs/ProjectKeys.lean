import AnnotationIndex.Project.Update
import AnnotationIndex.Proofs.PathNames

/-!
The keys that changed paths have. A file of a project has one key, the way to it from the project's directory. An
absolute path always gives that key, however it is spelled; a path from that directory is taken as it stands, but
for one `./` in front.
-/
namespace AnnotationIndex
open Text

namespace Path
variable {dirs names rest : List Text} {p s : Text}

instance : DecidablePred IsName := fun s => inferInstanceAs (Decidable (s ≠ [] ∧ slash ∉ s ∧ s ≠ "." ∧ s ≠ ".."))

def rooted (names : List Text) : Text := slash :: join [slash] names

theorem resolve_eq (base p : Text) :
    resolve base p = rooted (normalSegments false (if isAbsolute p then p else base ++ slash :: p)) := rfl

theorem isAbsolute_rooted (names : List Text) : isAbsolute (rooted names) = true := by simp [rooted, isAbsolute]

theorem splitOn_rooted (names : List Text) : splitOn slash (rooted names) = [] :: splitOn slash (join [slash] names) :=
  splitOn_append slash [] _

theorem splitOn_join_names (hne : names ≠ []) (h : ∀ s ∈ names, IsName s) :
    splitOn slash (join [slash] names) = names :=
  splitOn_join hne fun s hs => (h s hs).2.1

/-- Segments in which nothing is empty, a dot or to be taken back are all kept. -/
theorem foldl_join (h : ∀ s ∈ names, IsName s) (climbs : Bool) (kept : List Text) :
    (splitOn slash (join [slash] names)).foldl (normalStep climbs) kept = names.reverse ++ kept := by
  by_cases hne : names = []
  · rw [hne]
    rfl
  · rw [splitOn_join_names hne h, foldl_names h]

theorem normalSegments_rooted (h : ∀ s ∈ names, IsName s) (climbs : Bool) :
    normalSegments climbs (rooted names) = names := by
  rw [normalSegments, splitOn_rooted, List.foldl_cons]
  exact (congrArg List.reverse (foldl_join h climbs [])).trans (by simp)

theorem rooted_injective (h : ∀ s ∈ names, IsName s) (hrest : ∀ s ∈ rest, IsName s) (heq : rooted names = rooted rest) :
    names = rest := by
  rw [← normalSegments_rooted h false, heq, normalSegments_rooted hrest]

/-- A step that may not climb keeps names only. -/
theorem isName_normalStep {kept : List Text} (h : ∀ s ∈ kept, IsName s) (hp : slash ∉ p) :
    ∀ s ∈ normalStep false kept p, IsName s := by
  unfold normalStep
  split
  · exact h
  next hplain =>
  rw [Bool.or_eq_true, not_or, List.isEmpty_iff, beq_iff_eq] at hplain
  split
  next hback =>
    cases kept with
    | nil => exact fun s hs => absurd hs List.not_mem_nil
    | cons t kept =>
      obtain ⟨⟨_, _, _, ht⟩, hkept⟩ := List.forall_mem_cons.mp h
      simpa [ht] using hkept
  next hname =>
    rw [beq_iff_eq] at hname
    exact List.forall_mem_cons.mpr ⟨⟨hplain.1, hp, hplain.2, hname⟩, h⟩

theorem isName_foldl {pieces kept : List Text} (hpieces : ∀ s ∈ pieces, slash ∉ s) (h : ∀ s ∈ kept, IsName s) :
    ∀ s ∈ pieces.foldl (normalStep false) kept, IsName s := by
  induction pieces generalizing kept with
  | nil => exact h
  | cons p pieces ih =>
    obtain ⟨hp, hpieces⟩ := List.forall_mem_cons.mp hpieces
    exact ih hpieces (isName_normalStep h hp)

theorem isName_normalSegments (p : Text) : ∀ s ∈ normalSegments false p, IsName s := by
  intro s hs
  exact isName_foldl (fun _ => not_mem_of_mem_splitOn) (fun _ h => absurd h List.not_mem_nil) s (List.mem_reverse.mp hs)

def climb (dirs pieces : List Text) : List Text := (pieces.foldl (normalStep false) dirs.reverse).reverse

theorem normalSegments_below (h : ∀ s ∈ dirs, IsName s) (p : Text) :
    normalSegments false (rooted dirs ++ slash :: p) = climb dirs (splitOn slash p) := by
  rw [normalSegments, splitOn_append, List.foldl_append, splitOn_rooted, List.foldl_cons]
  exact congrArg (fun kept => ((splitOn slash p).foldl (normalStep false) kept).reverse)
    ((foldl_join h false []).trans (List.append_nil _))

theorem climb_names (h : ∀ s ∈ names, IsName s) (dirs : List Text) :
    climb dirs (splitOn slash (join [slash] names)) = dirs ++ names := by
  rw [climb, foldl_join h, List.reverse_append, List.reverse_reverse, List.reverse_reverse]

/-- A directory and what lies in it. -/
theorem exists_rest_of_isUnder (hdirs : ∀ s ∈ dirs, IsName s) (hne : dirs ≠ []) (hnames : ∀ s ∈ names, IsName s)
    (h : Disk.isUnder (rooted dirs) (rooted names) = true) : ∃ rest, names = dirs ++ rest := by
  obtain ⟨t, ht⟩ := List.isPrefixOf_iff_prefix.mp h
  have hsplit : splitOn slash (join [slash] names) = dirs ++ splitOn slash t := by
    have hpieces := congrArg (splitOn slash) ht
    rw [List.append_assoc, List.singleton_append, splitOn_append, splitOn_rooted, splitOn_rooted,
      splitOn_join_names hne hdirs] at hpieces
    exact (List.cons.inj hpieces).2.symm
  -- no names split into the one empty piece, which is too short to begin with a directory
  by_cases hnil : names = []
  · have hlength := congrArg List.length hsplit
    have hpos := List.length_pos_iff.mpr hne
    have hpos' := List.length_pos_iff.mpr (splitOn_ne_nil slash t)
    rw [hnil, List.length_append] at hlength
    have hone : (splitOn slash (join [slash] [])).length = 1 := rfl
    omega
  · exact ⟨_, (splitOn_join_names hnil hnames).symm.trans hsplit⟩

theorem drop_rooted (hne : dirs ≠ []) (rest : List Text) :
    (rooted (dirs ++ rest)).drop ((rooted dirs).length + 1) = join [slash] rest := by
  by_cases hrest : rest = []
  · simp [hrest, join]
  · rw [rooted, rooted, join_append hne hrest, ← List.cons_append, ← List.append_assoc]
    exact List.drop_left' (by simp)

theorem relative_rooted (hdirs : ∀ s ∈ dirs, IsName s)
    (hp : normalSegments false p = dirs ++ rest) (habs : isAbsolute p = true) :
    relative (rooted dirs) p = join [slash] rest := by
  rw [relative, isAbsolute_rooted, habs, Bool.not_true, normalSegments_rooted hdirs, hp, commonLength_append]
  simp

theorem normalize_rooted {pieces : List Text} (hne : pieces ≠ []) (h : ∀ s ∈ pieces, s ≠ [] ∧ slash ∉ s) :
    normalize (rooted pieces) = rooted (climb [] pieces) := by
  have hsegments : normalSegments false (rooted pieces) = climb [] pieces := by
    rw [normalSegments, splitOn_rooted, splitOn_join hne fun s hs => (h s hs).2]
    rfl
  have hlast : ((rooted pieces).getLast? == some slash) = false := by
    obtain ⟨init, s, rfl⟩ := pieces.eq_nil_or_concat'.resolve_left hne
    obtain ⟨hs, hslash⟩ := h s (by simp)
    have hwhole : rooted (init ++ [s]) = join [slash] ([] :: init ++ [s]) := by
      rw [List.cons_append, join_cons (List.append_ne_nil_of_right_ne_nil init (List.cons_ne_nil s []))]
      rfl
    rw [beq_eq_false_iff_ne, hwhole, getLast?_join_concat _ hs]
    exact fun hlast => hslash (List.mem_of_getLast? hlast)
  have hnames : ∀ s ∈ climb [] pieces, IsName s := hsegments ▸ isName_normalSegments _
  have hempty : (rooted pieces).isEmpty = false := rfl
  simp only [normalize, hempty, isAbsolute_rooted, hlast, hsegments, Bool.not_true]
  by_cases hnil : climb [] pieces = []
  · rw [hnil]
    rfl
  · simp [join_ne_nil hnil hnames, rooted]

theorem foldl_filter_isEmpty (climbs : Bool) (kept pieces : List Text) :
    (pieces.filter fun s => !s.isEmpty).foldl (normalStep climbs) kept = pieces.foldl (normalStep climbs) kept := by
  rw [List.foldl_filter]
  refine congrArg (fun step => pieces.foldl step kept) (funext₂ fun kept s => ?_)
  cases s <;> simp [normalStep]

/-- Joining pieces behind a directory gives what they lead to from there. -/
theorem joinAll_rooted (hdirs : ∀ s ∈ dirs, IsName s) (hne : dirs ≠ []) {pieces : List Text}
    (h : ∀ s ∈ pieces, slash ∉ s) : joinAll (rooted dirs :: pieces) = rooted (climb dirs pieces) := by
  have hwhole : ∀ ps : List Text, join [slash] (rooted dirs :: ps) = rooted (dirs ++ ps) := by
    intro ps
    by_cases hps : ps = []
    · rw [hps, List.append_nil]
      rfl
    · rw [join_cons hps, rooted, rooted, join_append hne hps, List.cons_append]
  have hpieces : ∀ s ∈ dirs ++ pieces.filter fun s => !s.isEmpty, s ≠ [] ∧ slash ∉ s := by
    refine List.forall_mem_append.mpr ⟨fun s hs => ⟨(hdirs s hs).1, (hdirs s hs).2.1⟩, fun s hs => ?_⟩
    obtain ⟨hs, hempty⟩ := List.mem_filter.mp hs
    exact ⟨by simpa using hempty, h s hs⟩
  -- joining leaves out empty pieces, and these are no steps
  have hclimb : climb [] (dirs ++ pieces.filter fun s => !s.isEmpty) = climb dirs pieces := by
    rw [climb, climb, List.foldl_append, foldl_filter_isEmpty, List.reverse_nil, foldl_names hdirs, List.append_nil]
  rw [joinAll, List.filter_cons_of_pos rfl, hwhole, ← hclimb]
  exact normalize_rooted (List.append_ne_nil_of_left_ne_nil hne _) hpieces

end Path

namespace ProjectPath
open AnnotationIndex.Path
variable {root s t : Text} {dirs rest : List Text}

def key (root s : Text) : Text := (resolve root s).drop (root.length + 1)

def Inside (root s : Text) : Prop := resolve root s = root ∨ Disk.isUnder root (resolve root s) = true

def Tidy (t : Text) : Prop := t = [] ∨ ∀ s ∈ splitOn slash t, IsName s

/-- Whether a path is absolute, or tidy but for one `./` in front. -/
def Straight (s : Text) : Prop := isAbsolute s = true ∨ Tidy (dropHead (ofString "./") s)

instance : DecidablePred Tidy := fun t => inferInstanceAs (Decidable (t = [] ∨ ∀ s ∈ splitOn slash t, IsName s))

instance : DecidablePred Straight := fun s =>
  inferInstanceAs (Decidable (isAbsolute s = true ∨ Tidy (dropHead (ofString "./") s)))

theorem tidy_iff : Tidy t ↔ ∃ names, (∀ s ∈ names, IsName s) ∧ t = join [slash] names := by
  constructor
  · rintro (rfl | h)
    · exact ⟨[], fun _ hs => absurd hs List.not_mem_nil, rfl⟩
    · exact ⟨_, h, (join_splitOn slash t).symm⟩
  · rintro ⟨names, h, rfl⟩
    by_cases hne : names = []
    · rw [hne]
      exact .inl rfl
    · refine .inr ?_
      rwa [splitOn_join_names hne h]

theorem splitOn_dotSlash (t : Text) : splitOn slash (ofString "./" ++ t) = ofString "." :: splitOn slash t :=
  splitOn_append slash (ofString ".") t

/-- Names never begin with a step of their own. -/
theorem dropHead_join (h : ∀ s ∈ rest, IsName s) :
    dropHead (ofString "./") (join [slash] rest) = join [slash] rest := by
  unfold dropHead
  split
  next hstart =>
    obtain ⟨t, ht⟩ := List.isPrefixOf_iff_prefix.mp hstart
    have hne : rest ≠ [] := by
      rintro rfl
      exact absurd ht (List.cons_ne_nil _ _)
    have hdot : ofString "." ∈ rest := by
      rw [← splitOn_join_names hne h, ← ht, splitOn_dotSlash]
      exact List.mem_cons_self
    exact absurd rfl (h _ hdot).2.2.1
  · rfl

theorem isAbsolute_join (h : ∀ s ∈ rest, IsName s) : isAbsolute (join [slash] rest) = false := by
  by_cases hne : rest = []
  · rw [hne]
    rfl
  · rw [← ofNames_of_ne_nil hne]
    exact isAbsolute_ofNames h

section Rooted
variable (hdirs : ∀ s ∈ dirs, IsName s) (hne : dirs ≠ [])
include hdirs

/-- What a relative path names is what its segments lead to, with or without a `./` in front. -/
theorem resolve_relative (hs : isAbsolute s = false) :
    resolve (rooted dirs) s = rooted (climb dirs (splitOn slash (dropHead (ofString "./") s))) := by
  rw [resolve_eq, hs, if_neg Bool.false_ne_true, normalSegments_below hdirs, dropHead]
  split
  next hstart =>
    obtain ⟨t, rfl⟩ := List.isPrefixOf_iff_prefix.mp hstart
    rw [splitOn_dotSlash, List.drop_left]
    rfl
  · rfl

include hne

theorem toPath_rooted (t : Text) : toPath (rooted dirs) t = rooted (climb dirs (splitOn slash t)) :=
  joinAll_rooted hdirs hne fun _ => not_mem_of_mem_splitOn

theorem exists_rest (hs : Inside (rooted dirs) s) :
    ∃ rest, (∀ t ∈ rest, IsName t) ∧ resolve (rooted dirs) s = rooted (dirs ++ rest) := by
  have hnames := isName_normalSegments (if isAbsolute s then s else rooted dirs ++ slash :: s)
  rw [Inside, resolve_eq] at hs
  obtain hself | hunder := hs
  · exact ⟨[], fun _ ht => absurd ht List.not_mem_nil, by rw [List.append_nil, resolve_eq, hself]⟩
  · obtain ⟨rest, hrest⟩ := exists_rest_of_isUnder hdirs hne hnames hunder
    rw [hrest] at hnames
    exact ⟨rest, fun t ht => hnames t (List.mem_append_right dirs ht), by rw [resolve_eq, hrest]⟩

variable (hrest : ∀ t ∈ rest, IsName t) (hs : resolve (rooted dirs) s = rooted (dirs ++ rest))
include hs

omit hdirs in
theorem key_eq : key (rooted dirs) s = join [slash] rest := by
  rw [key, hs, drop_rooted hne]

include hrest

omit hne in
/-- An absolute path has the key of what it names. -/
theorem ofPath_of_isAbsolute (habs : isAbsolute s = true) : ofPath (rooted dirs) s = join [slash] rest := by
  rw [resolve_eq, habs, if_pos rfl] at hs
  have hsegments := rooted_injective (isName_normalSegments s) (List.forall_mem_append.mpr ⟨hdirs, hrest⟩) hs
  rw [ofPath, habs, if_pos rfl, relative_rooted hdirs hsegments habs, dropHead_join hrest]

/-- A key leads back to what it is the key of. -/
theorem toPath_ofPath : toPath (rooted dirs) (ofPath (rooted dirs) s) = resolve (rooted dirs) s := by
  cases habs : isAbsolute s with
  | true => rw [ofPath_of_isAbsolute hdirs hrest hs habs, toPath_rooted hdirs hne, climb_names hrest, hs]
  | false => rw [ofPath, habs, if_neg Bool.false_ne_true, toPath_rooted hdirs hne, resolve_relative hdirs habs]

omit hne in
theorem ofPath_eq_iff : ofPath (rooted dirs) s = join [slash] rest ↔ Straight s := by
  cases habs : isAbsolute s with
  | true => exact iff_of_true (ofPath_of_isAbsolute hdirs hrest hs habs) (.inl habs)
  | false =>
    rw [Straight, habs, or_iff_right Bool.false_ne_true, tidy_iff, ofPath, habs, if_neg Bool.false_ne_true]
    constructor
    · exact fun heq => ⟨rest, hrest, heq⟩
    -- tidy names are what the path resolves to, and those are determined by the resolved path
    · rintro ⟨names, hnames, heq⟩
      have hall : ∀ {ts : List Text}, (∀ t ∈ ts, IsName t) → ∀ t ∈ dirs ++ ts, IsName t :=
        fun h => List.forall_mem_append.mpr ⟨hdirs, h⟩
      rw [resolve_relative hdirs habs, heq, climb_names hnames] at hs
      rw [heq, List.append_cancel_left (rooted_injective (hall hnames) (hall hrest) hs)]

end Rooted

/-- A directory in normal form, but not the topmost, is where some names lead. -/
theorem exists_dirs (hroot : resolve "/" root = root) (hne : root ≠ "/") :
    ∃ dirs, (∀ s ∈ dirs, IsName s) ∧ dirs ≠ [] ∧ root = rooted dirs := by
  rw [resolve_eq] at hroot
  refine ⟨_, isName_normalSegments _, fun hnil => hne ?_, hroot.symm⟩
  rw [← hroot, hnil]
  rfl

/-- What an absolute path in normal form names does not depend on where it is named. -/
theorem resolve_resolve (base base' s : Text) : resolve base (resolve base' s) = resolve base' s := by
  rw [resolve_eq base, resolve_eq base', isAbsolute_rooted, if_pos rfl, normalSegments_rooted (isName_normalSegments _)]

/-- A scan lists what lies in a directory under these keys. -/
theorem key_mem_pathsUnder {disk : Disk} {f : Text × Text} (hf : f ∈ disk.files) (hunder : Disk.isUnder root f.1 = true)
    (hs : resolve root s = f.1) : key root s ∈ disk.pathsUnder root :=
  List.mem_filterMap.mpr ⟨f, hf, by rw [if_pos hunder, key, hs]⟩

section Keys
variable (hroot : resolve "/" root = root) (hne : root ≠ "/") (hs : Inside root s)
include hroot hne hs

theorem ofPath_eq_key_iff : ofPath root s = key root s ↔ Straight s := by
  obtain ⟨dirs, hdirs, hdirs', rfl⟩ := exists_dirs hroot hne
  obtain ⟨rest, hrest, hs⟩ := exists_rest hdirs hdirs' hs
  rw [key_eq hdirs' hs, ofPath_eq_iff hdirs hrest hs]

theorem ofPath_key : ofPath root (key root s) = key root s := by
  obtain ⟨dirs, hdirs, hdirs', rfl⟩ := exists_dirs hroot hne
  obtain ⟨rest, hrest, hs⟩ := exists_rest hdirs hdirs' hs
  rw [key_eq hdirs' hs, ofPath, isAbsolute_join hrest, if_neg Bool.false_ne_true, dropHead_join hrest]

theorem toPath_ofPath_eq_resolve : toPath root (ofPath root s) = resolve root s := by
  obtain ⟨dirs, hdirs, hdirs', rfl⟩ := exists_dirs hroot hne
  obtain ⟨rest, hrest, hs⟩ := exists_rest hdirs hdirs' hs
  exact toPath_ofPath hdirs hdirs' hrest hs

/-- The key of the path that a key leads to is the way there. -/
theorem ofPath_toPath_ofPath : ofPath root (toPath root (ofPath root s)) = key root s := by
  have hresolve := resolve_resolve root root s
  have hinside : Inside root (resolve root s) := by rwa [Inside, hresolve]
  have hstraight : Straight (resolve root s) := .inl (isAbsolute_rooted _)
  rw [toPath_ofPath_eq_resolve hroot hne hs, (ofPath_eq_key_iff hroot hne hinside).mpr hstraight, key, hresolve, key]

end Keys
end ProjectPath

namespace Project
open AnnotationIndex.Path ProjectPath

/-- The keys of changed paths are all that an update knows of them. -/
theorem update_congr {p : Project} {changed changed' : List Text} (h : p.candidates changed = p.candidates changed')
    (disk : Disk) (r : ProjectIndex) (cancelled : Bool) :
    p.update disk r changed cancelled = p.update disk r changed' cancelled := by
  rw [update, update, h]

/-- A path inside a project gets the one key of what it names if and only if it is straight, and only then is its
key the key of the path that it leads to. Another path to the same place gets the same key as a straight one if and
only if it is straight as well. An update with straight paths is the update with their keys, and those of files are
the ones that a scan lists. -/
theorem key_of_spelling {p : Project} (hroot : resolve "/" p.root = p.root) (hne : p.root ≠ "/") :
    (∀ s, Inside p.root s → (ofPath p.root s = key p.root s ↔ Straight s) ∧
      toPath p.root (ofPath p.root s) = resolve p.root s ∧
        (ofPath p.root (toPath p.root (ofPath p.root s)) = ofPath p.root s ↔ Straight s)) ∧
    (∀ s s', Inside p.root s → resolve p.root s' = resolve p.root s → Straight s →
      (ofPath p.root s' = ofPath p.root s ↔ Straight s')) ∧
    (∀ disk r changed cancelled, (∀ s ∈ changed, Inside p.root s ∧ Straight s) →
      p.update disk r changed cancelled = p.update disk r (changed.map (key p.root)) cancelled) ∧
    ∀ disk : Disk, ∀ f ∈ disk.files, Disk.isUnder p.root f.1 = true → ∀ s, resolve p.root s = f.1 →
      key p.root s ∈ disk.pathsUnder p.root := by
  refine ⟨fun s hs => ⟨ofPath_eq_key_iff hroot hne hs, toPath_ofPath_eq_resolve hroot hne hs, ?_⟩,
    fun s s' hs hsame hstraight => ?_, fun disk r changed cancelled hall => update_congr ?_ disk r cancelled,
    fun disk f hf hunder s hs => key_mem_pathsUnder hf hunder hs⟩
  · rw [ofPath_toPath_ofPath hroot hne hs, eq_comm, ofPath_eq_key_iff hroot hne hs]
  · have hs' : Inside p.root s' := by rwa [Inside, hsame]
    rw [(ofPath_eq_key_iff hroot hne hs).mpr hstraight, ← ofPath_eq_key_iff hroot hne hs', key, key, hsame]
  · rw [candidates, candidates, List.map_map]
    refine congrArg sortedSet (List.map_congr_left fun s hs => ?_)
    obtain ⟨hinside, hstraight⟩ := hall s hs
    rw [Function.comp_apply, ofPath_key hroot hne hinside, (ofPath_eq_key_iff hroot hne hinside).mpr hstraight]

/-- An absolute path with detours and a path from the directory lead to one file and get its key. -/
theorem key_of_spelling_detour : resolve "/" (ofString "/p") = "/p" ∧ ofString "/p" ≠ "/" ∧
    Inside "/p" "./b.ts" ∧ resolve "/p" "/p//a/../b.ts" = resolve "/p" "./b.ts" ∧
      ofPath "/p" "/p//a/../b.ts" = ofPath "/p" "./b.ts" := by
  have hroot : resolve "/" (ofString "/p") = "/p" := by decide +kernel
  have hne : ofString "/p" ≠ "/" := by decide
  have hinside : Inside "/p" "./b.ts" := .inr (by decide +kernel)
  have hsame : resolve "/p" "/p//a/../b.ts" = resolve "/p" "./b.ts" := by decide +kernel
  have hrelative : Straight "./b.ts" := by decide +kernel
  have habsolute : Straight "/p//a/../b.ts" := .inl (by decide)
  obtain ⟨_, hkeys, _⟩ := key_of_spelling (p := ⟨"/p", .standard⟩) hroot hne
  exact ⟨hroot, hne, hinside, hsame, (hkeys _ _ hinside hsame hrelative).mpr habsolute⟩

/-- A path with a detour gets another key than the absolute path to the same file, and its key leads to a file with
another key. -/
theorem ofPath_detour : Inside "/p" "a/../b.ts" ∧ resolve "/p" "a/../b.ts" = resolve "/p" "/p/b.ts" ∧
    ofPath "/p" "a/../b.ts" ≠ ofPath "/p" "/p/b.ts" ∧
      ofPath "/p" (toPath "/p" (ofPath "/p" "a/../b.ts")) ≠ ofPath "/p" "a/../b.ts" :=
  ⟨.inr (by decide +kernel), by decide +kernel, by decide +kernel, by decide +kernel⟩

end Project
end AnnotationIndex
