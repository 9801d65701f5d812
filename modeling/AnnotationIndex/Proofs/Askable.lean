import AnnotationIndex.Membership.ProjectFilter
import AnnotationIndex.Path
import Mathlib.Data.List.Infix

/-!
The paths that the filter of a project can be asked about. The ignore rules refuse all others, and the index knows none
of them.
-/
namespace AnnotationIndex
open Text

namespace IgnoreRules
variable {path : Text}

def Askable (path : Text) : Prop :=
  (replaceUnit (unit '\\') Path.slash path).isEmpty = false ∧
  isOutside (replaceUnit (unit '\\') Path.slash path) = false

theorem ignores_of_askable (h : Askable path) (rules : IgnoreRules) :
    rules.ignores path = .ok (rules.covers (replaceUnit (unit '\\') Path.slash path)) := by
  simp [ignores, h.1, h.2]

theorem askable_of_ignores {rules : IgnoreRules} {ignored : Bool} (h : rules.ignores path = .ok ignored) :
    Askable path := by
  unfold ignores at h
  dsimp only at h
  split at h
  · exact absurd h nofun
  next hempty =>
  split at h
  · exact absurd h nofun
  next houtside => exact ⟨by simpa using hempty, by simpa using houtside⟩

end IgnoreRules

namespace ProjectFilter
open IgnoreRules
variable {filter : ProjectFilter} {path : Text}

theorem exists_accepts_of_askable (filter : ProjectFilter) (h : Askable path) :
    ∃ accepted, filter.accepts path = .ok accepted := by
  unfold accepts
  rw [ignores_of_askable h]
  split
  · exact ⟨_, rfl⟩
  · split
    · exact ⟨_, rfl⟩
    · split <;> exact ⟨_, rfl⟩

theorem askable_of_accepts (h : filter.accepts path = .ok true) : Askable path := by
  unfold accepts at h
  split at h
  · exact absurd (Except.ok.inj h) Bool.false_ne_true
  · split at h
    · exact absurd (Except.ok.inj h) Bool.false_ne_true
    · split at h
      · exact absurd (Except.ok.inj h) Bool.false_ne_true
      · cases hignores : filter.ignored.ignores path with
        | error e =>
          rw [hignores] at h
          exact absurd h nofun
        | ok ignored => exact askable_of_ignores hignores

end ProjectFilter

/-- A path that ignore rules can be asked about is its own key. -/
theorem ProjectPath.ofPath_of_askable {path : Text} (h : IgnoreRules.Askable path) (root : Text) :
    ofPath root path = path := by
  obtain ⟨_, houtside⟩ := h
  simp only [IgnoreRules.isOutside, Bool.or_eq_false_iff] at houtside
  obtain ⟨⟨⟨_, habsolute⟩, hdot⟩, _⟩ := houtside
  have hrelative : Path.isAbsolute path = false := by
    rw [Bool.eq_false_iff]
    intro habs
    cases path with
    | nil => exact absurd habs (by decide)
    | cons u rest =>
      obtain rfl : u = Path.slash := by simpa [Path.isAbsolute] using habs
      exact absurd habsolute (by simp [Path.isAbsolute, replaceUnit])
  have hplain : (ofString "./").isPrefixOf path = false := by
    rw [Bool.eq_false_iff]
    intro hstart
    obtain ⟨rest, rfl⟩ := List.isPrefixOf_iff_prefix.mp hstart
    rw [Bool.eq_false_iff] at hdot
    refine hdot (List.isPrefixOf_iff_prefix.mpr ⟨replaceUnit (unit '\\') Path.slash rest, ?_⟩)
    simp only [replaceUnit, List.map_append]
    rfl
  rw [ofPath, hrelative, if_neg Bool.false_ne_true, dropHead, hplain, if_neg Bool.false_ne_true]

end AnnotationIndex
