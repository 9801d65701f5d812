import AnnotationIndex.Text.Unit

/-!
Log lines. A logger has the names of the parts that it speaks for; all loggers share one level, below which nothing is
shown.
-/
namespace AnnotationIndex

/-- What a line is about; `silent` is the level at which no line is shown. -/
inductive LogLevel where
  | debug
  | info
  | warn
  | error
  | silent
  deriving DecidableEq, Repr

namespace LogLevel

def all : List LogLevel := [debug, info, warn, error, silent]

def name : LogLevel → Text
  | debug => "debug"
  | info => "info"
  | warn => "warn"
  | error => "error"
  | silent => "silent"

def ofName? (t : Text) : Option LogLevel := all.find? (·.name == t)

def rank : LogLevel → Nat
  | debug => 0
  | info => 1
  | warn => 2
  | error => 3
  | silent => 4

def shows (setting line : LogLevel) : Bool := setting.rank ≤ line.rank

def tag : LogLevel → Text
  | debug => "DEBUG"
  | info => "INFO"
  | warn => "WARN"
  | error => "ERROR"
  | silent => "SILENT"

end LogLevel

structure Logger where
  label : Text
  deriving DecidableEq

namespace Logger

def plain : Logger := ⟨[]⟩

def child (l : Logger) (name : Text) : Logger :=
  if l.label.isEmpty then ⟨name⟩ else ⟨l.label ++ ":" ++ name⟩

end Logger

/-- A line of the log. A timed line ends with how long the work has taken, which only the caller can tell. -/
structure LogLine where
  level : LogLevel
  source : Logger
  message : Text
  timed : Bool
  deriving DecidableEq

namespace LogLine

def text (l : LogLine) (elapsed : Text) : Text :=
  let label : Text := if l.source.label.isEmpty then [] else "[" ++ l.source.label ++ "] "
  let time : Text := if l.timed then " in " ++ elapsed ++ "ms" else []
  "[" ++ l.level.tag ++ "] " ++ label ++ l.message ++ time

def of (level : LogLevel) (source : Logger) (message : Text) : LogLine := ⟨level, source, message, false⟩

end LogLine
end AnnotationIndex
