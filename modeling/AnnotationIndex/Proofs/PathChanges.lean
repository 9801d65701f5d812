import AnnotationIndex.Proofs.Rebuild

/-!
What an update makes of a changed path. A file has changed if its text has another hash than the recorded one, and
is gone if there is none that the filter accepts. Keys are looked up as they are, so that a name which every record
has counts as one that is recorded.
-/
namespace AnnotationIndex
open Text

namespace FileChange
variable {c : FileChange} {t : Text}

def path : FileChange → Text
  | fresh path => path
  | gone path => path

theorem fresh?_eq_some : c.fresh? = some t ↔ c = .fresh t := by
  cases c <;> simp [fresh?]

theorem gone?_eq_some : c.gone? = some t ↔ c = .gone t := by
  cases c <;> simp [gone?]

end FileChange

namespace Project
variable {p : Project} {disk : Disk} {filter : ProjectFilter} {r : ProjectIndex} {path : Text}

/-- What an update sees under a key: the text of a file that the filter accepts, or nothing. -/
def Sees (p : Project) (disk : Disk) (filter : ProjectFilter) (path : Text) (text : Option Text) : Prop :=
  ∃ accepted, filter.accepts path = .ok accepted ∧ (if accepted then p.read? disk path else .ok none) = .ok text

def Differs (p : Project) (disk : Disk) (filter : ProjectFilter) (r : ProjectIndex) (path text : Text) : Prop :=
  p.Sees disk filter path (some text) ∧ Table.get? r.contentHashes path ≠ some (contentHash text)

/-- Whether there is no file under a key that an update takes for a recorded one. -/
def Missed (p : Project) (disk : Disk) (filter : ProjectFilter) (r : ProjectIndex) (path : Text) : Prop :=
  p.Sees disk filter path none ∧ (path ∈ r.files.keys ∨ Table.isInherited path = true)

theorem Sees.unique {text text' : Option Text} (h : p.Sees disk filter path text) (h' : p.Sees disk filter path text') :
    text = text' := by
  obtain ⟨accepted, haccepts, hread⟩ := h
  obtain ⟨accepted', haccepts', hread'⟩ := h'
  obtain rfl := Except.ok.inj (haccepts.symm.trans haccepts')
  exact Except.ok.inj (hread.symm.trans hread')

theorem Sees.belongs {text : Text} (h : p.Sees disk filter path (some text)) :
    filter.accepts path = .ok true ∧ p.read? disk path = .ok (some text) := by
  obtain ⟨accepted, haccepts, hread⟩ := h
  cases accepted with
  | true => exact ⟨haccepts, hread⟩
  | false => exact absurd (Except.ok.inj hread) nofun

theorem Differs.accepts {text : Text} (h : p.Differs disk filter r path text) : filter.accepts path = .ok true :=
  h.1.belongs.1

theorem Differs.read {text : Text} (h : p.Differs disk filter r path text) : p.read? disk path = .ok (some text) :=
  h.1.belongs.2

section Changes
variable {c : Option FileChange} {path' : Text}

theorem Sees.changeOf_eq {text : Option Text} (h : p.Sees disk filter path text) (r : ProjectIndex) :
    p.changeOf disk filter r path = .ok (text.elim
      (if r.files.has path || Table.isInherited path then some (.gone path) else none) fun t =>
        if Table.get? r.contentHashes path == some (contentHash t) then none else some (.fresh path)) := by
  obtain ⟨_, haccepts, hread⟩ := h
  exact Edit.changeOf_of_text haccepts hread

/-- What has become of a path can be told only if the filter and the disk answer. -/
theorem exists_sees_of_changeOf (h : p.changeOf disk filter r path = .ok c) : ∃ text, p.Sees disk filter path text := by
  unfold Sees
  simp only [changeOf, bind, Except.bind, pure, Except.pure] at h
  cases haccepts : filter.accepts path with
  | error e => simp [haccepts, Except.mapError] at h
  | ok accepted =>
    cases accepted with
    | false => exact ⟨none, false, rfl, rfl⟩
    | true =>
      cases hread : p.read? disk path with
      | error e => simp [haccepts, hread, Except.mapError] at h
      | ok text => exact ⟨text, true, rfl, by rw [if_pos rfl]⟩

theorem changeOf_eq_fresh_iff : p.changeOf disk filter r path = .ok (some (.fresh path')) ↔
    path' = path ∧ ∃ text, p.Differs disk filter r path text := by
  constructor
  · intro h
    obtain ⟨text, hsees⟩ := exists_sees_of_changeOf h
    rw [hsees.changeOf_eq] at h
    cases text with
    | none => simp at h
    | some t =>
      obtain ⟨hdiffers, rfl⟩ : Table.get? r.contentHashes path ≠ some (contentHash t) ∧ path = path' := by simpa using h
      exact ⟨rfl, t, hsees, hdiffers⟩
  · rintro ⟨rfl, text, hsees, hdiffers⟩
    simp [hsees.changeOf_eq, hdiffers]

theorem changeOf_eq_gone_iff : p.changeOf disk filter r path = .ok (some (.gone path')) ↔
    path' = path ∧ p.Missed disk filter r path := by
  constructor
  · intro h
    obtain ⟨text, hsees⟩ := exists_sees_of_changeOf h
    rw [hsees.changeOf_eq] at h
    cases text with
    | none =>
      obtain ⟨hknown, rfl⟩ : (r.files.has path = true ∨ Table.isInherited path = true) ∧ path = path' :=
        by simpa using h
      exact ⟨rfl, hsees, hknown.imp_left Table.has_iff.mp⟩
    | some t => simp at h
  · rintro ⟨rfl, hsees, hknown⟩
    have hknown := hknown.imp_left Table.has_iff.mpr
    simp [hsees.changeOf_eq, hknown]

/-- What an update finds stands in the order of the paths that it looks at. -/
theorem sublist_of_changes {paths : List Text} {changes : List (Option FileChange)}
    (h : List.Forall₂ (fun path c => p.changeOf disk filter r path = .ok c) paths changes) :
    ((changes.filterMap id).map FileChange.path).Sublist paths := by
  induction h with
  | nil => exact List.Sublist.refl _
  | @cons path c paths changes hc _ ih =>
    cases c with
    | none => exact ih.cons path
    | some c =>
      have hpath : c.path = path := by
        cases c with
        | fresh source => exact (changeOf_eq_fresh_iff.mp hc).1
        | gone source => exact (changeOf_eq_gone_iff.mp hc).1
      exact hpath ▸ ih.cons_cons c.path

end Changes

end Project
end AnnotationIndex
