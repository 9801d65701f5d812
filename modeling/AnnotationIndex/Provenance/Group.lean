import AnnotationIndex.Diagnostic
import AnnotationIndex.Provenance.Basic
import AnnotationIndex.Provenance.Date

/-!
Groups of source lines. Each line sets one part of a provenance, a later line of a namespace replacing
an earlier one. A part that cannot be read is reported; a confidence that is no number or lies outside
the unit interval is refused where validation is strict.
-/
namespace AnnotationIndex
open Text

inductive ValidationMode where
  | permissive
  | strict
  deriving DecidableEq, Repr

namespace ValidationMode

def all : List ValidationMode := [permissive, strict]

def name : ValidationMode → Text
  | permissive => "permissive"
  | strict => "strict"

def ofName? (t : Text) : Option ValidationMode := all.find? (·.name == t)

end ValidationMode

structure SourceLine where
  nameSpace : Text
  parameters : List Text
  value : Text
  line : Int
  deriving DecidableEq

inductive ConfidenceFault where
  | notANumber (raw : Text)
  | outside (raw : Text) (value : Number)
  deriving DecidableEq

namespace ConfidenceFault

def message : ConfidenceFault → Text
  | notANumber raw => "Confidence \"" ++ raw ++ "\" is not a number"
  | outside raw _ => "Confidence " ++ raw ++ " is outside [0, 1]"

def replacement : ConfidenceFault → Option Number
  | notANumber _ => none
  | outside _ v => some (if v.lt Number.zero then Number.zero else Number.ofNat 1)

def report (f : ConfidenceFault) : Text :=
  match f.replacement with
  | none => f.message ++ ", ignoring it"
  | some c => f.message ++ ", clamped to " ++ c.toText

end ConfidenceFault

namespace Provenance

def decimal? (t : Text) : Option Number :=
  let (negative, t) :=
    match t with
    | u :: rest => if u == unit '-' then (true, rest) else if u == unit '+' then (false, rest) else (false, t)
    | [] => (false, t)
  let whole := t.takeWhile isDigit
  match t.dropWhile isDigit with
  | [] => if whole.isEmpty then none else some (Number.ofParts negative whole [] 0)
  | u :: rest =>
    if u == unit '.' && rest.all isDigit && !(whole.isEmpty && rest.isEmpty) then
      some (Number.ofParts negative whole rest 0)
    else none

def readConfidence (raw : Text) : Except ConfidenceFault Number :=
  match decimal? raw with
  | none => .error (.notANumber raw)
  | some v => if v.lt Number.zero || (Number.ofNat 1).lt v then .error (.outside raw v) else .ok v

structure Draft where
  origin : Origin
  confidence : Option Number
  reviewed : Bool
  reviewedAt : Option Text
  generationId : Option Text
  generatedAt : Option Text
  reports : List Diagnostic

def Draft.start : Draft := ⟨.explicit, none, false, none, none, none, []⟩

def Draft.report (d : Draft) (file : Text) (line : Int) (message : Text) : Draft :=
  { d with reports := d.reports ++ [Diagnostic.ofLine .invalidProvenance file line message] }

def Draft.setConfidence (d : Draft) (file : Text) (s : SourceLine) : Except ConfidenceFault Number → Draft
  | .ok c => { d with confidence := some c }
  | .error f => { d with confidence := f.replacement }.report file s.line f.report

/-- A draft after one more source line, or the line and fault of a confidence that is refused. -/
def Draft.step (mode : ValidationMode) (file : Text) (d : Draft) (s : SourceLine) :
    Except (Int × ConfidenceFault) Draft :=
  let first := s.parameters.headD []
  if s.nameSpace == "source" then
    match Origin.ofName? first with
    | some o => .ok { d with origin := o }
    | none =>
      .ok ({ d with origin := .heuristic }.report file s.line
        ("Unknown provenance origin \"" ++ first ++ "\", treating as heuristic"))
  else if s.nameSpace == "source-confidence" then
    match mode, readConfidence first with
    | .strict, .error f => .error (s.line, f)
    | _, r => .ok (d.setConfidence file s r)
  else if s.nameSpace == "source-reviewed" then
    if first == "true" then .ok { d with reviewed := true }
    else if first == "false" then .ok { d with reviewed := false }
    else if Date.isDate first then .ok { d with reviewed := true, reviewedAt := some first }
    else
      .ok (d.report file s.line
        ("Invalid review marker \"" ++ first ++ "\", expected true, false or an ISO date"))
  else if s.nameSpace == "source-id" then
    if s.value.isEmpty then .ok d else .ok { d with generationId := some s.value }
  else if s.nameSpace == "source-at" then
    if Date.isDate first then .ok { d with generatedAt := some first }
    else .ok (d.report file s.line ("Invalid generation timestamp \"" ++ first ++ "\""))
  else .ok d

def Draft.finish (d : Draft) (threshold : Number) : Provenance :=
  { origin := d.origin, confidence := d.confidence, reviewed := d.reviewed,
    generationId := d.generationId, generatedAt := d.generatedAt, reviewedAt := d.reviewedAt,
    needsReview := reviewNeeded d.origin d.confidence d.reviewed threshold }

def ofGroup (mode : ValidationMode) (threshold : Number) (file : Text) (group : List SourceLine) :
    Except (Int × ConfidenceFault) (Provenance × List Diagnostic) :=
  (group.foldlM (Draft.step mode file) Draft.start).map fun d => (d.finish threshold, d.reports)

end Provenance
end AnnotationIndex
