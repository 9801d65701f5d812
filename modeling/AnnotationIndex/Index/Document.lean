import AnnotationIndex.Index.Basic
import AnnotationIndex.Json.Check
import AnnotationIndex.Json.Print
import AnnotationIndex.Json.Read

/-!
Documents that hold an index: how an index is written, and how a document is read. A document of
another version, or one that is no index, is refused with every issue that it has.
-/
namespace AnnotationIndex
open Text

section Writing

namespace SymbolRecord

def toJson (s : SymbolRecord) : Json :=
  Json.fields [
    ("qualifiedName", some (.str s.qualifiedName)),
    ("name", some (.str s.name)),
    ("kind", some (.str s.kind.name)),
    ("file", some (.str s.file)),
    ("lineSpan", some s.lineSpan.toJson),
    ("exported", some (.bool s.exported)),
    ("container", s.container.map .str),
    ("signature", s.signature.map .str),
    ("purpose", s.purpose.map .str),
    ("constraint", some ((s.constraint.map Constraint.toJson).getD .null)),
    ("annotations", some (AnnotationMap.toJson s.annotations)),
    ("callers", some (Json.texts s.callers)),
    ("callees", some (Json.texts s.callees))]

end SymbolRecord

def InlineMarker.toJson (m : InlineMarker) : Json :=
  Json.fields [
    ("namespace", some (.str m.nameSpace)),
    ("line", some (Json.ofInt m.line)),
    ("directive", some (.str m.directive)),
    ("value", m.value.map .str),
    ("symbol", m.symbol.map .str)]

def LinkedName.toJson (n : LinkedName) : Json :=
  Json.fields [
    ("name", some (.str n.name)), ("local", some (.str n.binding)), ("symbol", some (.str n.symbol))]

def ImportEntry.toJson (e : ImportEntry) : Json :=
  Json.fields [
    ("specifier", some (.str e.specifier)),
    ("line", some (Json.ofInt e.line)),
    ("target", some (.str e.target)),
    ("names", some (.arr (e.names.map LinkedName.toJson))),
    ("namespaceAlias", e.namespaceAlias.map .str),
    ("wildcard", e.wildcard.map .bool)]

def CallRecord.toJson (c : CallRecord) : Json :=
  Json.fields [
    ("callee", some (.str c.callee)),
    ("line", some (Json.ofInt c.line)),
    ("caller", c.caller.map .str)]

def FileRecord.toJson (f : FileRecord) : Json :=
  Json.fields [
    ("path", some (.str f.path)),
    ("language", some (.str f.language)),
    ("lines", some (Json.ofInt f.lines)),
    ("module", f.module.map .str),
    ("summary", f.summary.map .str),
    ("purpose", f.purpose.map .str),
    ("owner", f.owner.map .str),
    ("layer", f.layer.map .str),
    ("domains", some (Json.texts f.domains)),
    ("constraint", some f.constraint.toJson),
    ("annotations", some (AnnotationMap.toJson f.annotations)),
    ("symbols", some (Json.texts f.symbols)),
    ("inline", some (.arr (f.inline.map InlineMarker.toJson))),
    ("exports", some (.arr (f.exports.map ExportRow.toJson))),
    ("imports", some (.arr (f.imports.map ImportEntry.toJson))),
    ("importedBy", some (Json.texts f.importedBy)),
    ("calls", some (.arr (f.calls.map CallRecord.toJson))),
    ("diagnostics", f.diagnostics.map fun ds => .arr (ds.map Diagnostic.toJson))]

def DomainRecord.toJson (d : DomainRecord) : Json :=
  Json.fields [
    ("name", some (.str d.name)),
    ("description", d.description.map .str),
    ("files", some (Json.texts d.files)),
    ("symbols", some (Json.texts d.symbols))]

def LockTable.toJson (t : LockTable) : Json :=
  .obj (LockLevel.all.map fun l => (l.name, Json.texts (t.ofLevel l)))

def OriginCounts.toJson (c : OriginCounts) : Json :=
  .obj (Origin.all.map fun o => (o.name, Json.ofInt (c.count o)))

def LowConfidence.toJson (e : LowConfidence) : Json :=
  Json.fields [
    ("file", some (.str e.file)),
    ("line", some (Json.ofInt e.line)),
    ("namespace", some (.str e.nameSpace)),
    ("origin", some (.str e.origin.name)),
    ("confidence", e.confidence.map .num)]

def ProvenanceStats.toJson (s : ProvenanceStats) : Json :=
  Json.fields [
    ("byOrigin", some s.byOrigin.toJson),
    ("needsReview", some (Json.ofInt s.needsReview)),
    ("reviewed", some (Json.ofInt s.reviewed)),
    ("lowConfidence", some (.arr (s.lowConfidence.map LowConfidence.toJson)))]

def Table.toJson {α : Type} (f : α → Json) (t : Table α) : Json := .obj (t.mapValues f)

namespace ProjectIndex

def toJson (r : ProjectIndex) : Json :=
  Json.fields [
    ("schemaVersion", some (.str version)),
    ("files", some (Table.toJson FileRecord.toJson r.files)),
    ("symbols", some (Table.toJson SymbolRecord.toJson r.symbols)),
    ("domains", some (Table.toJson DomainRecord.toJson r.domains)),
    ("constraintsIndex", some r.locks.toJson),
    ("provenanceStats", some r.provenance.toJson),
    ("contentHashes", some (Table.toJson .str r.contentHashes))]

def write (r : ProjectIndex) : Text := Json.stableText 2 r.toJson ++ [0x0A]

end ProjectIndex
end Writing

section Reading

namespace Schema
open Check

def lineSpan : Check LineSpan := object fun fs =>
  LineSpan.mk <$> field fs "start" int <*> field fs "end" int

def origin : Check Origin := oneOf (Origin.all.map Origin.name) Origin.ofName?

def level : Check LockLevel := oneOf (LockLevel.all.map LockLevel.name) LockLevel.ofName?

def provenance : Check Provenance := object fun fs =>
  Provenance.mk <$> field fs "origin" origin
    <*> field fs "confidence" (optional unitInterval)
    <*> field fs "reviewed" boolean
    <*> field fs "generationId" (optional string)
    <*> field fs "generatedAt" (optional string)
    <*> field fs "reviewedAt" (optional string)
    <*> field fs "needsReview" boolean

def payloads (fs : List (Text × Json)) : List (Text × Checked Payload) := [
  ("lock", Payload.lock <$> field fs "level" level),
  ("ref", Payload.ref <$> field fs "url" string),
  ("hack", Payload.hack <$> field fs "expires" (optional string) <*> field fs "ticket" (optional string)
    <*> field fs "reason" (optional string)),
  ("deprecated", Payload.deprecated <$> field fs "replacement" (optional string)),
  ("note", Payload.note <$> field fs "note" (optional string)),
  ("name", Payload.name <$> field fs "name" string),
  ("text", Payload.text <$> field fs "text" string),
  ("stability", Payload.stability <$>
    field fs "level" (oneOf (Stability.all.map Stability.name) Stability.ofName?)),
  ("list", Payload.list <$> field fs "names" texts),
  ("custom", Payload.custom <$> field fs "rawParameters" string)]

/- The kind of a payload is looked at before its other fields. -/
def payload : Check Payload := object fun fs =>
  let known := payloads fs
  let chosen :=
    match Table.get? fs "kind" with
    | some (.str k) => known.lookup k
    | _ => none
  match chosen with
  | some p => p
  | none =>
    (Checked.fail ("Invalid discriminator value. Expected " ++ alternatives (known.map (·.1)))).under
      (.key "kind")

def annotation : Check AnnotationRecord := object fun fs =>
  AnnotationRecord.mk <$> field fs "namespace" string
    <*> field fs "subNamespace" (optional string)
    <*> field fs "parameters" texts
    <*> field fs "value" string
    <*> field fs "directive" string
    <*> field fs "lineSpan" lineSpan
    <*> field fs "provenance" provenance
    <*> field fs "payload" payload
    <*> field fs "autoGenerated" trueOrMissing

def annotations : Check AnnotationMap := table (list annotation)

def constraint : Check Constraint := object fun fs =>
  Constraint.mk <$> field fs "level" level <*> field fs "directive" string
    <*> field fs "contributing" (list annotation)

def location : Check Location := object fun fs =>
  Location.mk <$> field fs "file" string <*> field fs "line" (optional int) <*> field fs "endLine" (optional int)

def diagnostic : Check Diagnostic := object fun fs =>
  Diagnostic.mk
    <$> field fs "kind" (oneOf (DiagnosticKind.all.map DiagnosticKind.name) DiagnosticKind.ofName?)
    <*> field fs "severity" (oneOf (Severity.all.map Severity.name) Severity.ofName?)
    <*> field fs "code" (codeOf (Code.all.map Code.text) Code.ofText?)
    <*> field fs "location" location
    <*> field fs "message" string

def symbolKind : Check SymbolKind := oneOf (SymbolKind.all.map SymbolKind.name) SymbolKind.ofName?

def symbol : Check SymbolRecord := object fun fs =>
  SymbolRecord.mk <$> field fs "qualifiedName" string
    <*> field fs "name" string
    <*> field fs "kind" symbolKind
    <*> field fs "file" string
    <*> field fs "lineSpan" lineSpan
    <*> field fs "exported" boolean
    <*> field fs "container" (optional string)
    <*> field fs "signature" (optional string)
    <*> field fs "purpose" (optional string)
    <*> field fs "constraint" (nullable constraint)
    <*> field fs "annotations" annotations
    <*> field fs "callers" texts
    <*> field fs "callees" texts

def marker : Check InlineMarker := object fun fs =>
  InlineMarker.mk <$> field fs "namespace" string
    <*> field fs "line" int
    <*> field fs "directive" string
    <*> field fs "value" (optional string)
    <*> field fs "symbol" (optional string)

def exportRow : Check ExportRow := object fun fs =>
  ExportRow.mk <$> field fs "name" string
    <*> field fs "local" (optional string)
    <*> field fs "from" (optional string)
    <*> field fs "sourceName" (optional string)

def linkedName : Check LinkedName := object fun fs =>
  LinkedName.mk <$> field fs "name" string <*> field fs "local" string <*> field fs "symbol" string

def importEntry : Check ImportEntry := object fun fs =>
  ImportEntry.mk <$> field fs "specifier" string
    <*> field fs "line" int
    <*> field fs "target" string
    <*> field fs "names" (list linkedName)
    <*> field fs "namespaceAlias" (optional string)
    <*> field fs "wildcard" (optional boolean)

def call : Check CallRecord := object fun fs =>
  CallRecord.mk <$> field fs "callee" string <*> field fs "line" int <*> field fs "caller" (optional string)

def file : Check FileRecord := object fun fs =>
  FileRecord.mk <$> field fs "path" string
    <*> field fs "language" string
    <*> field fs "lines" (intWith [atLeast Number.zero])
    <*> field fs "module" (optional string)
    <*> field fs "summary" (optional string)
    <*> field fs "purpose" (optional string)
    <*> field fs "owner" (optional string)
    <*> field fs "layer" (optional string)
    <*> field fs "domains" texts
    <*> field fs "constraint" constraint
    <*> field fs "annotations" annotations
    <*> field fs "symbols" texts
    <*> field fs "inline" (list marker)
    <*> field fs "exports" (list exportRow)
    <*> field fs "imports" (list importEntry)
    <*> field fs "importedBy" texts
    <*> field fs "calls" (list call)
    <*> field fs "diagnostics" (optional (list diagnostic))

def domain : Check DomainRecord := object fun fs =>
  DomainRecord.mk <$> field fs "name" string
    <*> field fs "description" (optional string)
    <*> field fs "files" texts
    <*> field fs "symbols" texts

def locks : Check LockTable := object fun fs =>
  LockTable.mk <$> field fs "frozen" texts
    <*> field fs "restricted" texts
    <*> field fs "approval-required" texts
    <*> field fs "tests-required" texts
    <*> field fs "docs-required" texts
    <*> field fs "normal" texts

def originCounts : Check OriginCounts := object fun fs =>
  OriginCounts.mk <$> field fs "explicit" int
    <*> field fs "converted" int
    <*> field fs "heuristic" int
    <*> field fs "refined" int
    <*> field fs "inferred" int

def lowConfidence : Check LowConfidence := object fun fs =>
  LowConfidence.mk <$> field fs "file" string
    <*> field fs "line" int
    <*> field fs "namespace" string
    <*> field fs "origin" origin
    <*> field fs "confidence" (optional number)

def provenanceStats : Check ProvenanceStats := object fun fs =>
  ProvenanceStats.mk <$> field fs "byOrigin" originCounts
    <*> field fs "needsReview" int
    <*> field fs "reviewed" int
    <*> field fs "lowConfidence" (list lowConfidence)

def projectIndex : Check ProjectIndex := object fun fs =>
  (fun _ => ProjectIndex.mk) <$> field fs "schemaVersion" string
    <*> field fs "files" (table file)
    <*> field fs "symbols" (table symbol)
    <*> field fs "domains" (table domain)
    <*> field fs "constraintsIndex" locks
    <*> field fs "provenanceStats" provenanceStats
    <*> field fs "contentHashes" (table string)

end Schema

inductive DocumentFault where
  | notJson
  | version (found : Json)
  | invalid (issues : List Issue)

def DocumentFault.message : DocumentFault → Text
  | notJson => "Cache is not valid JSON:"
  | version found =>
    "Unsupported cache schema version " ++ Json.compact found ++ " (expected \"" ++ ProjectIndex.version ++ "\")"
  | invalid issues => "Cache failed validation: " ++ Issue.describeAll issues

namespace ProjectIndex

def checkVersion (v : Json) : Except DocumentFault Unit :=
  let found := (Json.field? "schemaVersion" v).getD .null
  if found == .str version then .ok () else .error (.version found)

def ofJson (v : Json) : Except DocumentFault ProjectIndex := do
  checkVersion v
  match Schema.projectIndex (some v) with
  | .ok r => .ok r
  | .bad issues => .error (.invalid issues)

def read (t : Text) : Except DocumentFault ProjectIndex :=
  match Json.parse t with
  | some v => ofJson v
  | none => .error .notJson

end ProjectIndex
end Reading
end AnnotationIndex
