/-!
Numbers of documents and configurations: double-precision binary values, held exactly as an integer
times a power of two. `round` is the nearest value to a fraction, a tie going to the even mantissa;
everything else is integer arithmetic. The sign of zero is not kept, since no output shows it.
-/
namespace AnnotationIndex

inductive Number where
  | finite (mantissa : Int) (exponent : Int)
  | infinite (negative : Bool)
  | undefined
  deriving DecidableEq, Repr

namespace Number

def minExponent : Int := -1074
def maxExponent : Int := 971

def zero : Number := finite 0 minExponent

instance : Inhabited Number := ⟨zero⟩

/-- The quotient of two naturals, rounded to nearest, a tie going to the even neighbour. -/
def divNearestEven (num den : Nat) : Nat :=
  let q := num / den
  let r := num % den
  if 2 * r < den then q else if den < 2 * r then q + 1 else if q % 2 = 0 then q else q + 1

/-- `num / den / 2 ^ e` as a fraction of naturals. -/
def scale (num den : Nat) (e : Int) : Nat × Nat :=
  if e < 0 then (num * Nat.pow 2 (-e).toNat, den) else (num, den * Nat.pow 2 e.toNat)

/- The exponent at which the mantissa of `num / den` has 53 bits, or the least one. The difference of
the bit lengths is off by at most one, which the first quotient shows. -/
def exponentOf (num den : Nat) : Int :=
  let guess := max ((Nat.log2 num : Int) - Nat.log2 den - 53) minExponent
  let (n, d) := scale num den guess
  if n / d < Nat.pow 2 53 then guess else guess + 1

def round (negative : Bool) (num den : Nat) : Number :=
  if num = 0 then zero
  else
    let e := exponentOf num den
    let (n, d) := scale num den e
    let m := divNearestEven n d
    let (m, e) := if m = Nat.pow 2 53 then (Nat.pow 2 52, e + 1) else (m, e)
    if maxExponent < e then infinite negative
    else finite (if negative then -m else m) e

def ofNat (n : Nat) : Number := round false n 1
def ofInt (n : Int) : Number := round (n < 0) n.natAbs 1

/-- The value as an integer over a power of two that fits both exponents. -/
def align (e : Int) : Number → Int
  | finite m x => m * Nat.pow 2 (x - e).toNat
  | _ => 0

def lt : Number → Number → Bool
  | finite m e, finite n f =>
    let low := min e f
    align low (finite m e) < align low (finite n f)
  | infinite a, infinite b => a && !b
  | infinite a, finite _ _ => a
  | finite _ _, infinite b => !b
  | undefined, _ => false
  | _, undefined => false

def toInt? : Number → Option Int
  | finite m e =>
    if 0 ≤ e then some (m * Nat.pow 2 e.toNat)
    else
      let d := Nat.pow 2 (-e).toNat
      if m.natAbs % d = 0 then some (m.sign * (m.natAbs / d : Nat)) else none
  | _ => none

end Number
end AnnotationIndex
