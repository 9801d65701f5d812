import AnnotationIndex.Annotations.Directive
import AnnotationIndex.Annotations.Namespace
import AnnotationIndex.Provenance.Group

/-!
Annotations of a text. The lines of a block are joined to directives with their continuations; each
directive becomes an annotation or is malformed, and each run of source lines gives its provenance to
the annotations since the run before it. Permissive validation reports what is malformed and goes on;
strict validation ends at the first malformed line.
-/
namespace AnnotationIndex
open Text

inductive AnnotationFault where
  | header (body : Text)
  | unknownNamespace (nameSpace : Text)
  | payload (nameSpace : Text) (fault : PayloadFault)
  | directiveMissing (nameSpace : Text)
  | confidence (fault : ConfidenceFault)
  deriving DecidableEq

def AnnotationFault.message : AnnotationFault → Text
  | header body => "Malformed annotation header: " ++ trim body
  | unknownNamespace n => "Unknown annotation namespace \"" ++ n ++ "\""
  | payload n f => "Invalid @acp:" ++ n ++ " annotation: " ++ f.message
  | directiveMissing n => "@acp:" ++ n ++ " requires directive text after \" - \""
  | confidence f => f.message

structure AnnotationRefusal where
  file : Text
  span : LineSpan
  fault : AnnotationFault
  deriving DecidableEq

structure AnnotationRules where
  mode : ValidationMode
  threshold : Number
  custom : List Text
  deriving DecidableEq

structure AnnotatedBlock where
  lineSpan : LineSpan
  annotations : List AnnotationRecord
  deriving DecidableEq

namespace AnnotatedBlock

def toJson (b : AnnotatedBlock) : Json :=
  Json.fields [
    ("lineSpan", some b.lineSpan.toJson),
    ("annotations", some (.arr (b.annotations.map AnnotationRecord.toJson)))]

structure Entry where
  directive : DirectiveLine
  line : Nat
  lastLine : Nat
  deriving DecidableEq

namespace Entry

def span (e : Entry) : LineSpan := ⟨e.line, e.lastLine⟩

def extend (e : Entry) (l : BlockLine) : Entry :=
  let text := trim l.body
  { e with
    directive.directive :=
      if e.directive.directive.isEmpty then text else e.directive.directive ++ (0x20 :: text)
    lastLine := l.line }

def sourceLine (e : Entry) : SourceLine :=
  ⟨e.directive.nameSpace, e.directive.parameters, e.directive.value, e.line⟩

end Entry

/- The entries of a block's lines, and the lines whose header is malformed. A continuation of a
malformed line is dropped with it. -/
def entriesFrom : (last : Option Entry) → List BlockLine → List Entry × List BlockLine
  | last, [] => (last.toList, [])
  | last, l :: rest =>
    if l.isDirective then
      match DirectiveLine.parse? l.body with
      | some d =>
        let (entries, bad) := entriesFrom (some ⟨d, l.line, l.line⟩) rest
        (last.toList ++ entries, bad)
      | none =>
        let (entries, bad) := entriesFrom none rest
        (last.toList ++ entries, l :: bad)
    else entriesFrom (last.map (·.extend l)) rest

def entries (b : AnnotationBlock) : List Entry × List BlockLine := entriesFrom none b.lines

def reject (rules : AnnotationRules) (file : Text) (span : LineSpan) (fault : AnnotationFault) :
    Except AnnotationRefusal Diagnostic :=
  match rules.mode with
  | .strict => .error ⟨file, span, fault⟩
  | .permissive =>
    .ok (Diagnostic.make .annotationMalformed ⟨file, some span.start, some span.stop⟩ fault.message none)

/-- The annotation that an entry states, by hand as long as no source line follows it. -/
def annotation (rules : AnnotationRules) (e : Entry) : Except AnnotationFault AnnotationRecord :=
  let d := e.directive
  match NamespaceRule.find? rules.custom d.nameSpace with
  | none => .error (.unknownNamespace d.nameSpace)
  | some rule =>
    match rule.shape.read d.parameters d.value d.directive with
    | .error f => .error (.payload d.nameSpace f)
    | .ok payload =>
      let missing := d.directive.isEmpty && rule.requiresDirective
      if missing && rules.mode = .strict then .error (.directiveMissing d.nameSpace)
      else
        .ok { nameSpace := d.nameSpace, subNamespace := d.subNamespace, parameters := d.parameters,
              value := d.value,
              directive :=
                if missing then (rule.standIn.bind (·.directive? payload)).getD [] else d.directive,
              lineSpan := e.span, provenance := Provenance.byHand, payload, autoGenerated := missing }

/-- Annotations whose provenance is settled, those that wait for a group, and the open group. -/
structure Progress where
  settled : List AnnotationRecord
  pending : List AnnotationRecord
  group : List SourceLine
  reports : List Diagnostic

namespace Progress

def endGroup (rules : AnnotationRules) (file : Text) (p : Progress) : Except AnnotationRefusal Progress :=
  match p.group with
  | [] => .ok p
  | first :: _ =>
    if p.pending.isEmpty then
      .ok { p with
        group := []
        reports := p.reports ++ [Diagnostic.ofLine .invalidProvenance file first.line
          "Provenance group does not follow any annotation"] }
    else
      match Provenance.ofGroup rules.mode rules.threshold file p.group with
      | .error (line, f) => .error ⟨file, LineSpan.single line, .confidence f⟩
      | .ok (provenance, reports) =>
        .ok { settled := p.settled ++ p.pending.map fun a => { a with provenance }
              pending := [], group := [], reports := p.reports ++ reports }

def step (rules : AnnotationRules) (file : Text) (p : Progress) (e : Entry) :
    Except AnnotationRefusal Progress :=
  if AnnotationRecord.isSource e.directive.nameSpace then
    .ok { p with group := p.group ++ [e.sourceLine] }
  else do
    let p ← p.endGroup rules file
    match annotation rules e with
    | .ok a => .ok { p with pending := p.pending ++ [a] }
    | .error f =>
      let report ← reject rules file e.span f
      .ok { p with reports := p.reports ++ [report] }

end Progress

def ofBlock (rules : AnnotationRules) (file : Text) (b : AnnotationBlock) :
    Except AnnotationRefusal (AnnotatedBlock × List Diagnostic) := do
  let (entries, bad) := entries b
  let reports ← bad.mapM fun l => reject rules file (LineSpan.single l.line) (.header l.body)
  let p ← entries.foldlM (Progress.step rules file) ⟨[], [], [], reports⟩
  let p ← p.endGroup rules file
  .ok (⟨⟨b.first.line, b.last.line⟩, p.settled ++ p.pending⟩, p.reports)

end AnnotatedBlock

/-- The annotated blocks of a text and what is reported about them; a block without an accepted
annotation is left out. -/
structure Annotations where
  blocks : List AnnotatedBlock
  reports : List Diagnostic

namespace Annotations

def ofText (rules : AnnotationRules) (syntaxOf : CommentSyntax) (file : Text) (t : Text) :
    Except AnnotationRefusal Annotations := do
  let parsed ← (AnnotationBlock.scan syntaxOf t).mapM (AnnotatedBlock.ofBlock rules file)
  .ok ⟨(parsed.map (·.1)).filter fun b => !b.annotations.isEmpty, parsed.flatMap (·.2)⟩

end Annotations
end AnnotationIndex
