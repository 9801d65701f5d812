import AnnotationIndex.Index.Document
import AnnotationIndex.Proofs.Checked

/-!
The records of an index read back from a document. What the schema asks of a record is stated once for each kind of
record; a record that has it is read as it was written, but for its tables, which come in the order of their keys.
-/
namespace AnnotationIndex
open Text

section Storable

structure Number.Confidence (c : Number) : Prop where
  double : c.Double
  notBelow : c.lt Number.zero = false
  notAbove : (Number.ofNat 1).lt c = false

structure Table.Keyed {α : Type} (t : Table α) : Prop where
  nodup : t.keys.Nodup
  kept : Table.droppedKey ∉ t.keys

structure LineSpan.Storable (s : LineSpan) : Prop where
  start : Number.Holds s.start
  stop : Number.Holds s.stop

structure AnnotationRecord.Storable (a : AnnotationRecord) : Prop where
  lineSpan : a.lineSpan.Storable
  confidence : ∀ c ∈ a.provenance.confidence, c.Confidence

structure AnnotationMap.Storable (m : AnnotationMap) : Prop where
  keyed : Table.Keyed m
  records : ∀ a ∈ annotations m, a.Storable

def Constraint.Storable (c : Constraint) : Prop := ∀ a ∈ c.contributing, a.Storable

structure Location.Storable (l : Location) : Prop where
  line : ∀ n ∈ l.line, Number.Holds n
  endLine : ∀ n ∈ l.endLine, Number.Holds n

structure SymbolRecord.Storable (s : SymbolRecord) : Prop where
  lineSpan : s.lineSpan.Storable
  constraint : ∀ c ∈ s.constraint, c.Storable
  annotations : AnnotationMap.Storable s.annotations

structure FileRecord.Storable (f : FileRecord) : Prop where
  lines : Number.Holds f.lines
  nonneg : 0 ≤ f.lines
  constraint : f.constraint.Storable
  annotations : AnnotationMap.Storable f.annotations
  inline : ∀ m ∈ f.inline, Number.Holds m.line
  imports : ∀ e ∈ f.imports, Number.Holds e.line
  calls : ∀ c ∈ f.calls, Number.Holds c.line
  diagnostics : ∀ ds ∈ f.diagnostics, ∀ d ∈ ds, d.location.Storable

structure LowConfidence.Storable (e : LowConfidence) : Prop where
  line : Number.Holds e.line
  confidence : ∀ c ∈ e.confidence, c.Double

structure ProvenanceStats.Storable (s : ProvenanceStats) : Prop where
  byOrigin : ∀ o, Number.Holds (s.byOrigin.count o)
  needsReview : Number.Holds s.needsReview
  reviewed : Number.Holds s.reviewed
  lowConfidence : ∀ e ∈ s.lowConfidence, e.Storable

structure ProjectIndex.Storable (r : ProjectIndex) : Prop where
  files : Table.Keyed r.files
  symbols : Table.Keyed r.symbols
  domains : Table.Keyed r.domains
  hashes : Table.Keyed r.contentHashes
  file : ∀ e ∈ r.files, e.2.Storable
  symbol : ∀ e ∈ r.symbols, e.2.Storable
  provenance : r.provenance.Storable

end Storable

section Settled

/- Records with their tables in the order in which they are read back. -/

def SymbolRecord.settled (s : SymbolRecord) : SymbolRecord := { s with annotations := Table.settled s.annotations }

def FileRecord.settled (f : FileRecord) : FileRecord := { f with annotations := Table.settled f.annotations }

def ProjectIndex.settled (r : ProjectIndex) : ProjectIndex :=
  { r with
    files := r.files.settled.mapValues FileRecord.settled
    symbols := r.symbols.settled.mapValues SymbolRecord.settled
    domains := r.domains.settled
    contentHashes := r.contentHashes.settled }

end Settled

namespace Schema
open Check

section Values

theorem reads_int {n : Int} (h : Number.Holds n) {tests : List (Number → Option Text)}
    (ht : ∀ test ∈ tests, test (Number.ofInt n) = none) : Reads (intWith tests) (some (Json.ofInt n)) n := by
  have hfinite : Number.ofInt n ≠ .undefined := by
    intro hu
    rw [Number.Holds, hu] at h
    exact absurd h (by simp [Number.toInt?])
  have hwhole : isWhole (Number.ofInt n) = none := by
    rw [isWhole, h]
    rfl
  have hnumber := Reads.numberWith (Json.readsBack_of_double h.double) hfinite
    (List.forall_mem_cons.mpr ⟨hwhole, ht⟩)
  refine ⟨hnumber.storable, ?_⟩
  have hok := hnumber.ok
  simp only [Json.ofInt] at hok ⊢
  rw [intWith, hok, Checked.map, h]
  rfl

theorem reads_line {n : Int} (h : Number.Holds n) : Reads int (some (Json.ofInt n)) n :=
  reads_int h fun _ ht => absurd ht List.not_mem_nil

theorem reads_number {c : Number} (h : c.Double) : Reads number (some (.num c)) c := by
  refine .numberWith (Json.readsBack_of_double h) (fun hu => ?_) fun _ ht => absurd ht List.not_mem_nil
  rw [hu] at h
  cases h

theorem reads_confidence {c : Number} (h : c.Confidence) : Reads unitInterval (some (.num c)) c := by
  refine .numberWith (Json.readsBack_of_double h.double) (fun hu => ?_) fun test ht => ?_
  · have hd := h.double
    rw [hu] at hd
    cases hd
  · simp only [List.mem_cons, List.not_mem_nil, or_false] at ht
    obtain rfl | rfl := ht
    · rw [atLeast, h.notBelow]
      rfl
    · rw [atMost, h.notAbove]
      rfl

theorem reads_origin (o : Origin) : Reads origin (some (.str o.name)) o := .oneOf (by cases o <;> rfl)

theorem reads_level (l : LockLevel) : Reads level (some (.str l.name)) l := .oneOf (by cases l <;> rfl)

theorem reads_symbolKind (k : SymbolKind) : Reads symbolKind (some (.str k.name)) k := .oneOf (by cases k <;> rfl)

end Values

section Annotations

theorem reads_lineSpan {s : LineSpan} (h : s.Storable) : Reads lineSpan (some s.toJson) s :=
  ReadsAll.map LineSpan.mk "start" (reads_line h.start)
    |>.seq "end" (reads_line h.stop)
    |>.object (by decide)

theorem reads_provenance {p : Provenance} (h : ∀ c ∈ p.confidence, c.Confidence) : Reads provenance (some p.toJson) p :=
  ReadsAll.map Provenance.mk "origin" (reads_origin p.origin)
    |>.seq "confidence" (.optional .num fun c hc => reads_confidence (h c hc))
    |>.seq "reviewed" (.boolean p.reviewed)
    |>.seq "generationId" (.optionalString p.generationId)
    |>.seq "generatedAt" (.optionalString p.generatedAt)
    |>.seq "reviewedAt" (.optionalString p.reviewedAt)
    |>.seq "needsReview" (.boolean p.needsReview)
    |>.object (by decide)

/-- A payload is read by the fields of its kind. -/
theorem reads_ofKind {kind : String} {keys : List String} {entries : List (String × Option Json)}
    {read : List (Text × Json) → Checked Payload} {p : Payload} (h : ReadsAll keys entries read p)
    (hkind : ∀ fs, (payloads fs).lookup (ofString kind) = some (read fs))
    (hk : ((keys ++ ["kind"]).map ofString).Nodup) :
    Reads payload (some (Json.fields (("kind", some (.str (ofString kind))) :: entries.reverse))) p := by
  have hentries : ("kind", some (Json.str (ofString kind))) :: entries.reverse =
      (entries ++ [("kind", some (Json.str (ofString kind)))]).reverse := by rw [List.reverse_append]; rfl
  rw [hentries]
  unfold payload
  refine ReadsAll.object ⟨by rw [List.map_append, h.keys_eq]; rfl, fun e he => ?_, fun fs hfs => ?_⟩ hk
  · cases List.mem_append.mp he with
    | inl he => exact h.storable e he
    | inr he =>
      rw [List.mem_singleton.mp he]
      exact fun v hv => Option.some.inj hv ▸ .str _
  · have hfirst := hfs _ (List.mem_append_right _ List.mem_cons_self)
    simp only [Option.map_some, Json.stored] at hfirst
    simp only [hfirst, hkind]
    exact h.ok fs fun e he => hfs e (List.mem_append_left _ he)

theorem reads_payload (p : Payload) : Reads payload (some p.toJson) p := by
  cases p with
  | lock l => exact reads_ofKind (.map Payload.lock "level" (reads_level l)) (fun _ => rfl) (by decide)
  | ref t => exact reads_ofKind (.map Payload.ref "url" (.string t)) (fun _ => rfl) (by decide)
  | hack expires ticket reason =>
    exact reads_ofKind (((ReadsAll.map Payload.hack "expires" (.optionalString expires)).seq "ticket"
      (.optionalString ticket)).seq "reason" (.optionalString reason)) (fun _ => rfl) (by decide)
  | deprecated t =>
    exact reads_ofKind (.map Payload.deprecated "replacement" (.optionalString t)) (fun _ => rfl) (by decide)
  | note t => exact reads_ofKind (.map Payload.note "note" (.optionalString t)) (fun _ => rfl) (by decide)
  | name t => exact reads_ofKind (.map Payload.name "name" (.string t)) (fun _ => rfl) (by decide)
  | text t => exact reads_ofKind (.map Payload.text "text" (.string t)) (fun _ => rfl) (by decide)
  | stability l =>
    exact reads_ofKind (.map Payload.stability "level" (.oneOf (by cases l <;> rfl))) (fun _ => rfl) (by decide)
  | list ts => exact reads_ofKind (.map Payload.list "names" (.texts ts)) (fun _ => rfl) (by decide)
  | custom t => exact reads_ofKind (.map Payload.custom "rawParameters" (.string t)) (fun _ => rfl) (by decide)

theorem reads_annotation {a : AnnotationRecord} (h : a.Storable) : Reads annotation (some a.toJson) a :=
  ReadsAll.map AnnotationRecord.mk "namespace" (.string a.nameSpace)
    |>.seq "subNamespace" (.optionalString a.subNamespace)
    |>.seq "parameters" (.texts a.parameters)
    |>.seq "value" (.string a.value)
    |>.seq "directive" (.string a.directive)
    |>.seq "lineSpan" (reads_lineSpan h.lineSpan)
    |>.seq "provenance" (reads_provenance h.confidence)
    |>.seq "payload" (reads_payload a.payload)
    |>.seq "autoGenerated" (.trueOrMissing a.autoGenerated)
    |>.object (by decide)

theorem reads_annotations {m : AnnotationMap} (h : AnnotationMap.Storable m) :
    Reads annotations (some (AnnotationMap.toJson m)) (Table.settled m) :=
  .table (fun as : List AnnotationRecord => Json.arr (as.map AnnotationRecord.toJson)) h.keyed.nodup h.keyed.kept
    fun e he => .list AnnotationRecord.toJson fun a ha =>
      reads_annotation (h.records a (List.mem_flatMap.mpr ⟨e, he, ha⟩))

theorem reads_constraint {c : Constraint} (h : c.Storable) : Reads constraint (some c.toJson) c :=
  ReadsAll.map Constraint.mk "level" (reads_level c.level)
    |>.seq "directive" (.string c.directive)
    |>.seq "contributing" (.list AnnotationRecord.toJson fun a ha => reads_annotation (h a ha))
    |>.object (by decide)

end Annotations

section Records

theorem reads_location {l : Location} (h : l.Storable) :
    Reads location (some (Json.fields [("file", some (.str l.file)), ("line", l.line.map Json.ofInt),
      ("endLine", l.endLine.map Json.ofInt)])) l :=
  ReadsAll.map Location.mk "file" (.string l.file)
    |>.seq "line" (.optional Json.ofInt fun n hn => reads_line (h.line n hn))
    |>.seq "endLine" (.optional Json.ofInt fun n hn => reads_line (h.endLine n hn))
    |>.object (by decide)

theorem reads_diagnostic {d : Diagnostic} (h : d.location.Storable) : Reads diagnostic (some d.toJson) d :=
  ReadsAll.map Diagnostic.mk "kind" (.oneOf (show _ = some d.kind by cases d.kind <;> rfl))
    |>.seq "severity" (.oneOf (show _ = some d.severity by cases d.severity <;> rfl))
    |>.seq "code" (.codeOf (show _ = some d.code by cases d.code <;> rfl))
    |>.seq "location" (reads_location h)
    |>.seq "message" (.string d.message)
    |>.object (by decide)

theorem reads_constraintOrNull {c : Option Constraint} (h : ∀ c' ∈ c, c'.Storable) :
    Reads (nullable constraint) (some ((c.map Constraint.toJson).getD .null)) c := by
  cases c with
  | none => exact .of_some .null rfl
  | some c => exact (reads_constraint (h c rfl)).nullable

theorem reads_symbol {s : SymbolRecord} (h : s.Storable) : Reads symbol (some s.toJson) s.settled :=
  ReadsAll.map SymbolRecord.mk "qualifiedName" (.string s.qualifiedName)
    |>.seq "name" (.string s.name)
    |>.seq "kind" (reads_symbolKind s.kind)
    |>.seq "file" (.string s.file)
    |>.seq "lineSpan" (reads_lineSpan h.lineSpan)
    |>.seq "exported" (.boolean s.exported)
    |>.seq "container" (.optionalString s.container)
    |>.seq "signature" (.optionalString s.signature)
    |>.seq "purpose" (.optionalString s.purpose)
    |>.seq "constraint" (reads_constraintOrNull h.constraint)
    |>.seq "annotations" (reads_annotations h.annotations)
    |>.seq "callers" (.texts s.callers)
    |>.seq "callees" (.texts s.callees)
    |>.object (by decide)

theorem reads_marker {m : InlineMarker} (h : Number.Holds m.line) : Reads marker (some m.toJson) m :=
  ReadsAll.map InlineMarker.mk "namespace" (.string m.nameSpace)
    |>.seq "line" (reads_line h)
    |>.seq "directive" (.string m.directive)
    |>.seq "value" (.optionalString m.value)
    |>.seq "symbol" (.optionalString m.symbol)
    |>.object (by decide)

theorem reads_exportRow (r : ExportRow) : Reads exportRow (some r.toJson) r :=
  ReadsAll.map ExportRow.mk "name" (.string r.name)
    |>.seq "local" (.optionalString r.binding)
    |>.seq "from" (.optionalString r.source)
    |>.seq "sourceName" (.optionalString r.sourceName)
    |>.object (by decide)

theorem reads_linkedName (n : LinkedName) : Reads linkedName (some n.toJson) n :=
  ReadsAll.map LinkedName.mk "name" (.string n.name)
    |>.seq "local" (.string n.binding)
    |>.seq "symbol" (.string n.symbol)
    |>.object (by decide)

theorem reads_importEntry {e : ImportEntry} (h : Number.Holds e.line) : Reads importEntry (some e.toJson) e :=
  ReadsAll.map ImportEntry.mk "specifier" (.string e.specifier)
    |>.seq "line" (reads_line h)
    |>.seq "target" (.string e.target)
    |>.seq "names" (.list LinkedName.toJson fun n _ => reads_linkedName n)
    |>.seq "namespaceAlias" (.optionalString e.namespaceAlias)
    |>.seq "wildcard" (.optional .bool fun b _ => .boolean b)
    |>.object (by decide)

theorem reads_call {c : CallRecord} (h : Number.Holds c.line) : Reads call (some c.toJson) c :=
  ReadsAll.map CallRecord.mk "callee" (.string c.callee)
    |>.seq "line" (reads_line h)
    |>.seq "caller" (.optionalString c.caller)
    |>.object (by decide)

theorem reads_lineCount {n : Int} (h : Number.Holds n) (hn : 0 ≤ n) :
    Reads (intWith [atLeast Number.zero]) (some (Json.ofInt n)) n := by
  refine reads_int h fun test ht => ?_
  rw [List.mem_singleton.mp ht, atLeast, Number.not_lt_zero_ofInt hn]
  rfl

theorem reads_file {f : FileRecord} (h : f.Storable) : Reads file (some f.toJson) f.settled :=
  ReadsAll.map FileRecord.mk "path" (.string f.path)
    |>.seq "language" (.string f.language)
    |>.seq "lines" (reads_lineCount h.lines h.nonneg)
    |>.seq "module" (.optionalString f.module)
    |>.seq "summary" (.optionalString f.summary)
    |>.seq "purpose" (.optionalString f.purpose)
    |>.seq "owner" (.optionalString f.owner)
    |>.seq "layer" (.optionalString f.layer)
    |>.seq "domains" (.texts f.domains)
    |>.seq "constraint" (reads_constraint h.constraint)
    |>.seq "annotations" (reads_annotations h.annotations)
    |>.seq "symbols" (.texts f.symbols)
    |>.seq "inline" (.list InlineMarker.toJson fun m hm => reads_marker (h.inline m hm))
    |>.seq "exports" (.list ExportRow.toJson fun r (_ : r ∈ f.exports) => reads_exportRow r)
    |>.seq "imports" (.list ImportEntry.toJson fun e he => reads_importEntry (h.imports e he))
    |>.seq "importedBy" (.texts f.importedBy)
    |>.seq "calls" (.list CallRecord.toJson fun c hc => reads_call (h.calls c hc))
    |>.seq "diagnostics" (.optional (fun ds : List Diagnostic => Json.arr (ds.map Diagnostic.toJson)) fun ds hds =>
      .list Diagnostic.toJson fun d hd => reads_diagnostic (h.diagnostics ds hds d hd))
    |>.object (by decide)

theorem reads_domain (d : DomainRecord) : Reads domain (some d.toJson) d :=
  ReadsAll.map DomainRecord.mk "name" (.string d.name)
    |>.seq "description" (.optionalString d.description)
    |>.seq "files" (.texts d.files)
    |>.seq "symbols" (.texts d.symbols)
    |>.object (by decide)

theorem reads_locks (t : LockTable) : Reads locks (some t.toJson) t :=
  ReadsAll.map LockTable.mk "frozen" (.texts t.frozen)
    |>.seq "restricted" (.texts t.restricted)
    |>.seq "approval-required" (.texts t.approvalRequired)
    |>.seq "tests-required" (.texts t.testsRequired)
    |>.seq "docs-required" (.texts t.docsRequired)
    |>.seq "normal" (.texts t.normal)
    |>.objectOf (by rw [List.map_map]; exact show (LockLevel.all.map LockLevel.name).Nodup by decide)
      (fun e he => by
        obtain ⟨l, _, rfl⟩ := List.mem_map.mp he
        exact (Reads.texts (t.ofLevel l)).storable _ rfl)
      (by simp only [List.forall_mem_cons]; exact ⟨rfl, rfl, rfl, rfl, rfl, rfl, fun _ h => absurd h List.not_mem_nil⟩)

theorem reads_originCounts {c : OriginCounts} (h : ∀ o, Number.Holds (c.count o)) :
    Reads originCounts (some c.toJson) c :=
  ReadsAll.map OriginCounts.mk "explicit" (reads_line (h .explicit))
    |>.seq "converted" (reads_line (h .converted))
    |>.seq "heuristic" (reads_line (h .heuristic))
    |>.seq "refined" (reads_line (h .refined))
    |>.seq "inferred" (reads_line (h .inferred))
    |>.objectOf (by rw [List.map_map]; exact show (Origin.all.map Origin.name).Nodup by decide)
      (fun e he => by
        obtain ⟨o, _, rfl⟩ := List.mem_map.mp he
        exact (reads_line (h o)).storable _ rfl)
      (by simp only [List.forall_mem_cons]; exact ⟨rfl, rfl, rfl, rfl, rfl, fun _ h => absurd h List.not_mem_nil⟩)

theorem reads_lowConfidence {e : LowConfidence} (h : e.Storable) : Reads lowConfidence (some e.toJson) e :=
  ReadsAll.map LowConfidence.mk "file" (.string e.file)
    |>.seq "line" (reads_line h.line)
    |>.seq "namespace" (.string e.nameSpace)
    |>.seq "origin" (reads_origin e.origin)
    |>.seq "confidence" (.optional .num fun c hc => reads_number (h.confidence c hc))
    |>.object (by decide)

theorem reads_provenanceStats {s : ProvenanceStats} (h : s.Storable) : Reads provenanceStats (some s.toJson) s :=
  ReadsAll.map ProvenanceStats.mk "byOrigin" (reads_originCounts h.byOrigin)
    |>.seq "needsReview" (reads_line h.needsReview)
    |>.seq "reviewed" (reads_line h.reviewed)
    |>.seq "lowConfidence" (.list LowConfidence.toJson fun e he => reads_lowConfidence (h.lowConfidence e he))
    |>.object (by decide)

theorem reads_projectIndex {r : ProjectIndex} (h : r.Storable) : Reads projectIndex (some r.toJson) r.settled :=
  ReadsAll.map (fun _ => ProjectIndex.mk) "schemaVersion" (.string ProjectIndex.version)
    |>.seq "files" (.tableOf FileRecord.toJson h.files.nodup h.files.kept fun e he => reads_file (h.file e he))
    |>.seq "symbols" (.tableOf SymbolRecord.toJson h.symbols.nodup h.symbols.kept fun e he =>
      reads_symbol (h.symbol e he))
    |>.seq "domains" (.table DomainRecord.toJson h.domains.nodup h.domains.kept fun e _ => reads_domain e.2)
    |>.seq "constraintsIndex" (reads_locks r.locks)
    |>.seq "provenanceStats" (reads_provenanceStats h.provenance)
    |>.seq "contentHashes" (.table .str h.hashes.nodup h.hashes.kept fun e _ => .string e.2)
    |>.object (by decide)

end Records
end Schema
end AnnotationIndex
