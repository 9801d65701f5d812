import AnnotationIndex.Number.Binary
import AnnotationIndex.Text.Unit

/-!
Decimal text of numbers. A number is written with the fewest digits that read back to it, the nearest
such digits first; positionally while the point lies between six places before the digits and
twenty-one places after their start, and with an exponent otherwise.
-/
namespace AnnotationIndex.Number
open AnnotationIndex.Text (unit)

/- A decimal exponent beyond these bounds decides the value without computing the power. -/
def decimalLimit : Int := 400

def ofDecimal (negative : Bool) (digits : Nat) (exponent : Int) : Number :=
  if digits = 0 then zero
  else
    let magnitude := (Nat.toDigits 10 digits).length + exponent
    if decimalLimit < magnitude then infinite negative
    else if magnitude < -decimalLimit then zero
    else if 0 ≤ exponent then round negative (digits * Nat.pow 10 exponent.toNat) 1
    else round negative digits (Nat.pow 10 (-exponent).toNat)

def fraction (m : Nat) (e : Int) : Nat × Nat :=
  if 0 ≤ e then (m * Nat.pow 2 e.toNat, 1) else (m, Nat.pow 2 (-e).toNat)

/- The place of the decimal point: the least `p` at or above the guess with `num / den < 10 ^ p`. -/
def pointFrom (num den : Nat) : Nat → Int → Int
  | 0, p => p
  | fuel + 1, p =>
    let below := if 0 ≤ p then decide (num < den * Nat.pow 10 p.toNat) else decide (num * Nat.pow 10 (-p).toNat < den)
    if below then p else pointFrom num den fuel (p + 1)

/-- `num / den` lies in `[10 ^ (p - 1), 10 ^ p)` at the returned `p`. -/
def point (num den : Nat) : Int :=
  pointFrom num den 8 (((Nat.log2 num : Int) - Nat.log2 den - 1) * 1233 / 4096 - 1)

/-- The digits of the grid with `n` places that read back to `x`, the nearer of the two neighbours. -/
def gridDigits (x : Number) (num den : Nat) (p : Int) (n : Nat) : Option Nat :=
  let e := p - n
  let (a, b) := if 0 ≤ e then (num, den * Nat.pow 10 e.toNat) else (num * Nat.pow 10 (-e).toNat, den)
  let low := a / b
  let r := a % b
  let first := if 2 * r < b || (2 * r == b && low % 2 == 0) then low else low + 1
  let second := if first = low then low + 1 else low
  if ofDecimal false first e = x then some first
  else if ofDecimal false second e = x then some second
  else none

def shortestFrom (x : Number) (num den : Nat) (p : Int) : (left n : Nat) → Nat × Int
  | 0, n => (divNearestEven (if p - n < 0 then num * Nat.pow 10 (n - p).toNat else num) den, p - n)
  | left + 1, n =>
    match gridDigits x num den p n with
    | some d => (d, p - n)
    | none => shortestFrom x num den p left (n + 1)

/-- The fewest digits that read back to `m * 2 ^ e`, with their decimal exponent. -/
def shortest (m : Nat) (e : Int) : Nat × Int :=
  let (num, den) := fraction m e
  shortestFrom (finite m e) num den (point num den) 17 1

/- Trailing zeros of the digits belong to the exponent. -/
def dropZeros : Nat → Nat → Int → Nat × Int
  | 0, d, e => (d, e)
  | fuel + 1, d, e => if d ≠ 0 && d % 10 = 0 then dropZeros fuel (d / 10) (e + 1) else (d, e)

def zeros (n : Nat) : Text := List.replicate n (unit '0')

def layout (digits : Text) (exponent : Int) : Text :=
  let k : Int := digits.length
  let n := k + exponent
  if k ≤ n && n ≤ 21 then digits ++ zeros (n - k).toNat
  else if 0 < n && n ≤ 21 then digits.take n.toNat ++ unit '.' :: digits.drop n.toNat
  else if -6 < n && n ≤ 0 then unit '0' :: unit '.' :: (zeros (-n).toNat ++ digits)
  else
    let x := n - 1
    let mark := [unit 'e', if x < 0 then unit '-' else unit '+'] ++ Text.ofNat x.natAbs
    match digits with
    | [d] => d :: mark
    | d :: more => d :: unit '.' :: (more ++ mark)
    | [] => mark

def toText : Number → Text
  | finite m e =>
    if m = 0 then Text.ofString "0"
    else
      let (d, x) := shortest m.natAbs e
      let (d, x) := dropZeros 400 d x
      let body := layout (Text.ofNat d) x
      if m < 0 then unit '-' :: body else body
  | infinite negative => Text.ofString (if negative then "-Infinity" else "Infinity")
  | undefined => Text.ofString "NaN"

def digitsValue (t : Text) : Nat := t.foldl (fun n u => n * 10 + (u.toNat - 48)) 0

def ofParts (negative : Bool) (whole fractionDigits : Text) (exponent : Int) : Number :=
  ofDecimal negative (digitsValue (whole ++ fractionDigits)) (exponent - fractionDigits.length)

end AnnotationIndex.Number
