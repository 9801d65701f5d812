import AnnotationIndex.Project.Basic
import AnnotationIndex.Proofs.Accepted
import AnnotationIndex.Proofs.SaveLoad

/-!
Reading again what has been read. Every text is refused as an incompatible document or read as an index. The index
is written so that it can be read again exactly if no annotation that needs review has a confidence beyond all
doubles: such a confidence is read, but its text is `null`, which is refused.
-/
namespace AnnotationIndex
open Text

section Legible

theorem Json.legible_num {n : Number} (h : n.Spelled) : (num n).Legible := by
  cases h with
  | inl hdouble => exact .num (readsBack_of_double hdouble)
  | inr hinfinite =>
    obtain ⟨negative, rfl⟩ := hinfinite
    exact .endless negative

theorem Json.legible_obj_iff {fs : List (Text × Json)} : (obj fs).Legible ↔ ∀ e ∈ fs, e.2.Legible := by
  constructor
  · intro h
    cases h with
    | obj h => exact h
  · exact .obj

theorem Json.legible_arr_iff {items : List Json} : (arr items).Legible ↔ ∀ v ∈ items, v.Legible := by
  constructor
  · intro h
    cases h with
    | arr h => exact h
  · exact .arr

/-- The text of an object is read as far as the texts of its fields are. -/
theorem Json.legible_fields_iff {entries : List (String × Option Json)}
    (hn : (entries.map fun e => ofString e.1).Nodup) :
    (fields entries).Legible ↔ ∀ e ∈ entries, ∀ v ∈ e.2, v.Legible := by
  have hperm : (Table.ofList (Check.present entries)).Perm (Check.present entries) :=
    Table.perm_ofList (hn.sublist (Check.keys_present entries))
  change (obj (Table.ofList (Check.present entries))).Legible ↔ _
  rw [legible_obj_iff]
  constructor
  · intro h e he v hv
    refine h (ofString e.1, v) (hperm.mem_iff.mpr (List.mem_filterMap.mpr ⟨e, he, ?_⟩))
    rw [Option.mem_def.mp hv]
    rfl
  · intro h d hd
    obtain ⟨e, he, hd⟩ := List.mem_filterMap.mp (hperm.mem_iff.mp hd)
    obtain ⟨v, hv, rfl⟩ := Option.map_eq_some_iff.mp hd
    exact h e he v hv

variable {r : ProjectIndex}

theorem LowConfidence.nodup_keys : (["file", "line", "namespace", "origin", "confidence"].map ofString).Nodup := by
  decide

theorem ProvenanceStats.nodup_keys :
    (["byOrigin", "needsReview", "reviewed", "lowConfidence"].map ofString).Nodup := by
  decide

theorem ProjectIndex.nodup_keys : (["schemaVersion", "files", "symbols", "domains", "constraintsIndex",
    "provenanceStats", "contentHashes"].map ofString).Nodup := by
  decide

theorem LowConfidence.legible {e : LowConfidence} (h : ({ e with confidence := none } : LowConfidence).toJson.Legible)
    (hc : ∀ c ∈ e.confidence, c.Spelled) : e.toJson.Legible := by
  have h := (Json.legible_fields_iff (by exact nodup_keys)).mp h
  refine (Json.legible_fields_iff (by exact nodup_keys)).mpr ?_
  simp only [List.forall_mem_cons] at h ⊢
  obtain ⟨hfile, hline, hnamespace, horigin, _, hnil⟩ := h
  refine ⟨hfile, hline, hnamespace, horigin, fun v hv => ?_, hnil⟩
  obtain ⟨c, hc', rfl⟩ := Option.map_eq_some_iff.mp hv
  exact Json.legible_num (hc c hc')

theorem ProvenanceStats.legible {s : ProvenanceStats} (h : s.withoutConfidences.toJson.Legible)
    (hc : ∀ e ∈ s.lowConfidence, ∀ c ∈ e.confidence, c.Spelled) : s.toJson.Legible := by
  have h := (Json.legible_fields_iff (by exact nodup_keys)).mp h
  refine (Json.legible_fields_iff (by exact nodup_keys)).mpr ?_
  simp only [List.forall_mem_cons, Option.mem_def, Option.some.injEq, forall_eq'] at h ⊢
  obtain ⟨hcounts, hreview, hreviewed, hrows, hnil⟩ := h
  refine ⟨hcounts, hreview, hreviewed, ?_, hnil⟩
  rw [Json.legible_arr_iff, List.forall_mem_map] at hrows ⊢
  exact fun e he => LowConfidence.legible (hrows _ (List.mem_map_of_mem he)) (hc e he)

/-- The document of an index that a document states is read. -/
theorem ProjectIndex.Accepted.legible (h : r.Accepted) : r.toJson.Legible := by
  have hheld : r.withoutConfidences.toJson.Legible := ((Schema.reads_projectIndex h.held).storable _ rfl).legible
  have hheld := (Json.legible_fields_iff (by exact nodup_keys)).mp hheld
  refine (Json.legible_fields_iff (by exact nodup_keys)).mpr ?_
  simp only [List.forall_mem_cons, Option.mem_def, Option.some.injEq, forall_eq'] at hheld ⊢
  obtain ⟨hversion, hfiles, hsymbols, hdomains, hlocks, hprovenance, hhashes, hnil⟩ := hheld
  exact ⟨hversion, hfiles, hsymbols, hdomains, hlocks, ProvenanceStats.legible hprovenance h.spelled, hhashes, hnil⟩

end Legible

section Stored

/- Where a confidence stands in what is read back. -/

theorem LowConfidence.confidence_stored {e : LowConfidence} {c : Number} (hc : c ∈ e.confidence)
    (hendless : c.isEndless = true) : e.toJson.stored.field? (ofString "confidence") = some .null := by
  refine (Check.field?_stored (e := ("confidence", e.confidence.map .num)) (by exact nodup_keys) (by simp)).trans ?_
  rw [Option.mem_def.mp hc]
  cases c with
  | infinite negative => rfl
  | finite m k => exact absurd hendless (by simp [Number.isEndless])
  | undefined => exact absurd hendless (by simp [Number.isEndless])

theorem ProvenanceStats.lowConfidence_stored (s : ProvenanceStats) :
    s.toJson.stored.field? (ofString "lowConfidence") = some (.arr (s.lowConfidence.map fun e => e.toJson.stored)) := by
  refine (Check.field?_stored (e := ("lowConfidence", some (.arr (s.lowConfidence.map LowConfidence.toJson))))
    (by exact nodup_keys) (by simp)).trans ?_
  rw [Option.map_some, Json.stored_arr, List.map_map]
  rfl

theorem ProjectIndex.provenance_stored (r : ProjectIndex) :
    r.toJson.stored.field? (ofString "provenanceStats") = some r.provenance.toJson.stored :=
  Check.field?_stored (e := ("provenanceStats", some r.provenance.toJson)) (by exact nodup_keys) (by simp)

end Stored

namespace Schema
open Check
variable {v : Json}

/- What a check that succeeds has found on the way to a confidence. -/

theorem ok_of_object {α : Type} {read : List (Text × Json) → Checked α} {a : α} (h : object read (some v) = .ok a) :
    ∃ fs, v = .obj fs ∧ read fs = .ok a := by
  cases v with
  | obj fs => exact ⟨fs, rfl, h⟩
  | _ => exact absurd h (by simp [object, Checked.fail])

theorem stats_of_projectIndex {r : ProjectIndex} (h : projectIndex (some v) = .ok r) :
    ∃ s, provenanceStats (v.field? (ofString "provenanceStats")) = .ok s := by
  obtain ⟨fs, rfl, h⟩ := ok_of_object h
  obtain ⟨_, _, h, _, _⟩ := Checked.both_eq_ok.mp h
  obtain ⟨_, s, _, hs, _⟩ := Checked.both_eq_ok.mp h
  exact ⟨s, Checked.under_eq_ok.mp hs⟩

theorem rows_of_provenanceStats {s : ProvenanceStats} (h : provenanceStats (some v) = .ok s) :
    ∃ rows, list lowConfidence (v.field? (ofString "lowConfidence")) = .ok rows := by
  obtain ⟨fs, rfl, h⟩ := ok_of_object h
  obtain ⟨_, rows, _, hrows, _⟩ := Checked.both_eq_ok.mp h
  exact ⟨rows, Checked.under_eq_ok.mp hrows⟩

theorem row_of_list {rows : List LowConfidence} {items : List Json}
    (h : list lowConfidence (some (.arr items)) = .ok rows) (hv : v ∈ items) : ∃ e, lowConfidence (some v) = .ok e := by
  obtain ⟨i, hi, rfl⟩ := List.getElem_of_mem hv
  have hmem : ((lowConfidence (some items[i])).under (.index i)) ∈ rows.map Checked.ok := by
    rw [← Checked.all_eq_ok.mp h, List.mem_map]
    exact ⟨(items[i], i), List.mk_mem_zipIdx_iff_getElem?.mpr (List.getElem?_eq_getElem hi), rfl⟩
  obtain ⟨e, _, he⟩ := List.mem_map.mp hmem
  exact ⟨e, Checked.under_eq_ok.mp he.symm⟩

theorem confidence_of_lowConfidence {e : LowConfidence} (h : lowConfidence (some v) = .ok e) :
    v.field? (ofString "confidence") ≠ some .null := by
  obtain ⟨fs, rfl, h⟩ := ok_of_object h
  obtain ⟨_, c, _, hc, _⟩ := Checked.both_eq_ok.mp h
  intro hnull
  rw [field, show Table.get? fs (ofString "confidence") = some .null from hnull] at hc
  cases hc

end Schema

namespace ProjectIndex
variable {r : ProjectIndex}

theorem eq_of_beq_str {v : Json} {t : Text} : (v == Json.str t) = true ↔ v = .str t := by
  change v.beq (.str t) = true ↔ _
  cases v <;> simp [Json.beq]

/-- A document is read if it states the version and passes its check. -/
theorem ofJson_eq_ok {v : Json} : ofJson v = .ok r ↔
    v.field? (ofString "schemaVersion") = some (.str version) ∧ Schema.projectIndex (some v) = .ok r := by
  have hversion : checkVersion v = .ok () ↔ v.field? (ofString "schemaVersion") = some (.str version) := by
    rw [checkVersion]
    cases v.field? (ofString "schemaVersion") <;> simp [eq_of_beq_str]
  rw [ofJson, ← hversion]
  cases hv : checkVersion v with
  | error f => simp [bind, Except.bind]
  | ok u => cases hr : Schema.projectIndex (some v) <;> simp [bind, Except.bind]

theorem read_eq_ok {t : Text} : read t = .ok r ↔ ∃ v, Json.parse t = some v ∧ ofJson v = .ok r := by
  rw [read]
  cases Json.parse t <;> simp

theorem accepted_of_read {t : Text} (h : read t = .ok r) : r.Accepted := by
  obtain ⟨v, hparse, hv⟩ := read_eq_ok.mp h
  exact Schema.accepts_projectIndex (some v) r (fun w hw => Option.some.inj hw ▸ Json.spelled_parse hparse)
    (ofJson_eq_ok.mp hv).2

/-- A confidence beyond all doubles is not read again: its text is `null`. -/
theorem not_read_write {e : LowConfidence} {c : Number} (h : r.Accepted) (he : e ∈ r.provenance.lowConfidence)
    (hc : c ∈ e.confidence) (hendless : c.isEndless = true) (r' : ProjectIndex) : read r.write ≠ .ok r' := by
  intro hr'
  obtain ⟨v, hparse, hv⟩ := read_eq_ok.mp hr'
  obtain rfl := Option.some.inj ((Json.parse_stableText h.legible 2).symm.trans hparse)
  obtain ⟨_, hv⟩ := ofJson_eq_ok.mp hv
  -- The check comes to the row of the confidence, where `null` is refused.
  obtain ⟨s, hs⟩ := Schema.stats_of_projectIndex hv
  rw [provenance_stored] at hs
  obtain ⟨rows, hrows⟩ := Schema.rows_of_provenanceStats hs
  rw [ProvenanceStats.lowConfidence_stored] at hrows
  obtain ⟨row, hrow⟩ := Schema.row_of_list hrows (List.mem_map_of_mem he)
  exact Schema.confidence_of_lowConfidence hrow (LowConfidence.confidence_stored hc hendless)

theorem version_toJson (r : ProjectIndex) : r.toJson.field? (ofString "schemaVersion") = some (.str version) :=
  Check.field?_fields (e := ("schemaVersion", some (.str version))) (by exact nodup_keys) List.mem_cons_self

/-- Every text is refused as an incompatible document, or states the version and is read as an index. What is
written of that index is read again, as the same value, exactly if none of the confidences in need of review is
beyond all doubles. -/
theorem reread_iff (t : Text) :
    (∃ f, read t = .error f ∧ (ProjectFault.incompatible f).code? = some .incompatibleCache) ∨
      ∃ r, read t = .ok r ∧
        (∃ v, Json.parse t = some v ∧ v.field? (ofString "schemaVersion") = some (.str (ofString "1.0"))) ∧
        r.toJson.field? (ofString "schemaVersion") = some (.str (ofString "1.0")) ∧
        ((∃ r', read r.write = .ok r' ∧ r'.toJson.arranged = r.toJson.arranged) ↔
          ∀ e ∈ r.provenance.lowConfidence, ∀ c ∈ e.confidence, c.isEndless = false) := by
  cases hread : read t with
  | error f => exact .inl ⟨f, rfl, rfl⟩
  | ok r =>
    have haccepted := accepted_of_read hread
    obtain ⟨v, hparse, hv⟩ := read_eq_ok.mp hread
    refine .inr ⟨r, rfl, ⟨v, hparse, (ofJson_eq_ok.mp hv).1⟩, version_toJson r, ?_, ?_⟩
    · rintro ⟨r', hr', _⟩ e he c hc
      by_contra hendless
      exact not_read_write haccepted he hc (by simpa using hendless) r' hr'
    · intro hb
      have hstorable := haccepted.storable hb
      exact ⟨r.settled, read_write hstorable, arranged_settled hstorable⟩

def endlessDocument : Text := ([
  "\x7b\"constraintsIndex\": \x7b",
  "\"approval-required\": [], \"docs-required\": [], ",
  "\"frozen\": [], \"normal\": [], ",
  "\"restricted\": [], \"tests-required\": []\x7d, ",
  "\"contentHashes\": \x7b\x7d, \"domains\": \x7b\x7d, \"files\": \x7b\x7d, ",
  "\"provenanceStats\": \x7b\"byOrigin\": \x7b",
  "\"converted\": 0, \"explicit\": 0, ",
  "\"heuristic\": 1, \"inferred\": 0, \"refined\": 0\x7d, ",
  "\"lowConfidence\": [\x7b\"confidence\": 1e999, ",
  "\"file\": \"a.ts\", \"line\": 1, ",
  "\"namespace\": \"fn\", \"origin\": \"heuristic\"\x7d], ",
  "\"needsReview\": 1, \"reviewed\": 0\x7d, ",
  "\"schemaVersion\": \"1.0\", \"symbols\": \x7b\x7d\x7d"].map ofString).flatten

theorem not_reread_endless : ∃ r, read endlessDocument = .ok r ∧ ∀ r', read r.write ≠ .ok r' := by
  have hendless : ((read endlessDocument).toOption.any fun r =>
      r.provenance.lowConfidence.any fun e => e.confidence.any Number.isEndless) = true := by decide +kernel
  cases hr : read endlessDocument with
  | ok r =>
    rw [hr] at hendless
    obtain ⟨e, he, hany⟩ := List.any_eq_true.mp hendless
    obtain ⟨c, hc, hc'⟩ := (Option.any_eq_true _ _).mp hany
    exact ⟨r, rfl, not_read_write (accepted_of_read hr) he hc hc'⟩
  | error f =>
    rw [hr] at hendless
    cases hendless

end ProjectIndex
end AnnotationIndex
