import AnnotationIndex.Json.Value
import AnnotationIndex.Text.Order

/-!
Conditions reported about a file, a document or a request. Each kind has its code and the severity
that it has unless another is stated. Reports are ordered by file, line, kind and message.
-/
namespace AnnotationIndex

inductive Code where
  | annotationMalformed
  | annotationDuplicate
  | invalidProvenance
  | unsupportedLanguage
  | unparsableFile
  | incompatibleCache
  | staleCache
  | notFound
  | ambiguous
  | invalidRequest
  | configLoadError
  | configInvalid
  | parseError
  | fileNotFound
  | cancelled
  | internal
  deriving DecidableEq, Repr

namespace Code

def all : List Code :=
  [annotationMalformed, annotationDuplicate, invalidProvenance, unsupportedLanguage, unparsableFile,
    incompatibleCache, staleCache, notFound, ambiguous, invalidRequest, configLoadError, configInvalid,
    parseError, fileNotFound, cancelled, internal]

def text : Code → Text
  | annotationMalformed => "A001"
  | annotationDuplicate => "A002"
  | invalidProvenance => "A003"
  | unsupportedLanguage => "X001"
  | unparsableFile => "X002"
  | incompatibleCache => "C001"
  | staleCache => "C002"
  | notFound => "Q001"
  | ambiguous => "Q002"
  | invalidRequest => "Q003"
  | configLoadError => "CFG001"
  | configInvalid => "CFG002"
  | parseError => "S001"
  | fileNotFound => "S002"
  | cancelled => "S003"
  | internal => "S004"

def ofText? (t : Text) : Option Code := all.find? (·.text == t)

end Code

inductive DiagnosticKind where
  | annotationMalformed
  | annotationDuplicate
  | invalidProvenance
  | unsupportedLanguage
  | unparsableFile
  | incompatibleCache
  | staleCache
  | ambiguous
  | notFound
  deriving DecidableEq, Repr

namespace DiagnosticKind

def all : List DiagnosticKind :=
  [annotationMalformed, annotationDuplicate, invalidProvenance, unsupportedLanguage, unparsableFile,
    incompatibleCache, staleCache, ambiguous, notFound]

def name : DiagnosticKind → Text
  | annotationMalformed => "MalformedAnnotation"
  | annotationDuplicate => "DuplicateAnnotation"
  | invalidProvenance => "InvalidProvenance"
  | unsupportedLanguage => "UnsupportedLanguage"
  | unparsableFile => "UnparsableFile"
  | incompatibleCache => "IncompatibleCache"
  | staleCache => "StaleCache"
  | ambiguous => "Ambiguous"
  | notFound => "NotFound"

def ofName? (t : Text) : Option DiagnosticKind := all.find? (·.name == t)

def code : DiagnosticKind → Code
  | annotationMalformed => .annotationMalformed
  | annotationDuplicate => .annotationDuplicate
  | invalidProvenance => .invalidProvenance
  | unsupportedLanguage => .unsupportedLanguage
  | unparsableFile => .unparsableFile
  | incompatibleCache => .incompatibleCache
  | staleCache => .staleCache
  | ambiguous => .ambiguous
  | notFound => .notFound

end DiagnosticKind

inductive Severity where
  | error
  | warning
  | info
  deriving DecidableEq, Repr

namespace Severity

def all : List Severity := [error, warning, info]

def name : Severity → Text
  | error => "error"
  | warning => "warning"
  | info => "info"

def ofName? (t : Text) : Option Severity := all.find? (·.name == t)

end Severity

def DiagnosticKind.severity : DiagnosticKind → Severity
  | unsupportedLanguage => .info
  | notFound => .info
  | incompatibleCache => .error
  | staleCache => .error
  | _ => .warning

structure Location where
  file : Text
  line : Option Int
  endLine : Option Int
  deriving DecidableEq

structure Diagnostic where
  kind : DiagnosticKind
  severity : Severity
  code : Code
  location : Location
  message : Text
  deriving DecidableEq

namespace Diagnostic

def make (kind : DiagnosticKind) (location : Location) (message : Text)
    (severity : Option Severity) : Diagnostic :=
  { kind, severity := severity.getD kind.severity, code := kind.code, location, message }

def ofFile (kind : DiagnosticKind) (file message : Text) : Diagnostic :=
  make kind ⟨file, none, none⟩ message none

def ofLine (kind : DiagnosticKind) (file : Text) (line : Int) (message : Text) : Diagnostic :=
  make kind ⟨file, some line, none⟩ message none

def compare (a b : Diagnostic) : Ordering :=
  (Text.compare a.location.file b.location.file).then <|
  (Ord.compare (a.location.line.getD 0) (b.location.line.getD 0)).then <|
  (Text.compare a.kind.name b.kind.name).then <|
  Text.compare a.message b.message

def sorted (ds : List Diagnostic) : List Diagnostic := ds.mergeSort fun a b => compare a b != .gt

def toJson (d : Diagnostic) : Json :=
  Json.fields [
    ("kind", some (.str d.kind.name)),
    ("severity", some (.str d.severity.name)),
    ("code", some (.str d.code.text)),
    ("location", some (Json.fields [
      ("file", some (.str d.location.file)),
      ("line", d.location.line.map Json.ofInt),
      ("endLine", d.location.endLine.map Json.ofInt)])),
    ("message", some (.str d.message))]

end Diagnostic
end AnnotationIndex
