import AnnotationIndex.Text.Pattern
import AnnotationIndex.Number.Decimal

/-!
Calendar dates, alone or with a time of day and an offset. Days run to 31 in every month; the hour 24
is the end of a day and has no minutes, seconds or milliseconds.
-/
namespace AnnotationIndex.Date
open Text Pattern

def two : Pattern := one isDigit ++ one isDigit
def four : Pattern := two ++ two

/-- Date, time of day, seconds, fraction and offset are marked 1 to 8. -/
def shape : Pattern :=
  four ++ "-" ++ mark 1 two ++ "-" ++ mark 2 two ++
  opt ("T" ++ mark 3 two ++ ":" ++ mark 4 two ++
    opt (":" ++ mark 5 two ++ opt ("." ++ mark 8 (plus isDigit))) ++
    opt ("Z" <|> (one (oneOf "+-") ++ mark 6 two ++ opt ":" ++ mark 7 two))) ++
  atEnd

def inRange (low high : Nat) (t : Option Text) : Bool :=
  match t with
  | none => true
  | some t => low ≤ Number.digitsValue t && Number.digitsValue t ≤ high

def isZero (t : Option Text) : Bool := inRange 0 0 t

def isBrief (fraction : Option Text) : Bool := ((fraction.getD []).take 3).all (· == unit '0')

def isDate (t : Text) : Bool :=
  match shape.start t with
  | none => false
  | some m =>
    inRange 1 12 (m.mark? 1) && inRange 1 31 (m.mark? 2) &&
    (inRange 0 23 (m.mark? 3) ||
      (inRange 24 24 (m.mark? 3) && isZero (m.mark? 4) && isZero (m.mark? 5) && isBrief (m.mark? 8))) &&
    inRange 0 59 (m.mark? 4) && inRange 0 59 (m.mark? 5) &&
    inRange 0 23 (m.mark? 6) && inRange 0 59 (m.mark? 7)

end AnnotationIndex.Date
