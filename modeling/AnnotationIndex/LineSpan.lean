import AnnotationIndex.Json.Value

/-!
Spans of lines, first and last line included, counted from one. Documents may carry any integers.
-/
namespace AnnotationIndex

structure LineSpan where
  start : Int
  stop : Int
  deriving DecidableEq, Repr, Inhabited

namespace LineSpan

def single (line : Int) : LineSpan := ⟨line, line⟩

def contains (s : LineSpan) (line : Int) : Bool := s.start ≤ line && line ≤ s.stop

def extent (s : LineSpan) : Int := s.stop - s.start

def toJson (s : LineSpan) : Json :=
  Json.fields [("start", some (Json.ofInt s.start)), ("end", some (Json.ofInt s.stop))]

end LineSpan
end AnnotationIndex
