/-!
Texts as sequences of UTF-16 code units. Every length, column, slice and comparison of the index is
counted in these units, so a text may hold half of a surrogate pair: a signature is cut at a fixed
number of units, and a document may spell a lone surrogate with an escape.

The literal coercion lets a rule be written with ordinary string literals.
-/
namespace AnnotationIndex

abbrev Text := List UInt16

namespace Text

def unit (c : Char) : UInt16 := c.val.toUInt16

def ofScalar (n : Nat) : Text :=
  if n < 0x10000 then [n.toUInt16]
  else [(0xD800 + (n - 0x10000) / 0x400).toUInt16, (0xDC00 + (n - 0x10000) % 0x400).toUInt16]

def ofChar (c : Char) : Text := ofScalar c.toNat

def ofString (s : String) : Text := s.toList.flatMap ofChar

instance : Coe String Text := ⟨ofString⟩

def isHighSurrogate (u : UInt16) : Bool := 0xD800 ≤ u && u ≤ 0xDBFF
def isLowSurrogate (u : UInt16) : Bool := 0xDC00 ≤ u && u ≤ 0xDFFF
def isSurrogate (u : UInt16) : Bool := 0xD800 ≤ u && u ≤ 0xDFFF

def joinPair (high low : UInt16) : Nat :=
  0x10000 + (high.toNat - 0xD800) * 0x400 + (low.toNat - 0xDC00)

/- A pair reads as one scalar value; a surrogate without its partner stands for itself. -/
def scalars : Text → List Nat
  | [] => []
  | [u] => [u.toNat]
  | u :: v :: rest =>
    if isHighSurrogate u && isLowSurrogate v then joinPair u v :: scalars rest
    else u.toNat :: scalars (v :: rest)

def replacementCharacter : Char := Char.ofNat 0xFFFD

/- `Char.ofNat` gives NUL for a number that is no scalar value, so a lone surrogate is caught first. -/
def charOfScalar (n : Nat) : Char :=
  if 0xD800 ≤ n && n ≤ 0xDFFF then replacementCharacter else Char.ofNat n

/-- The characters of a text; a lone surrogate is shown as the replacement character. -/
def toString (t : Text) : String := String.ofList ((scalars t).map charOfScalar)

/- The UTF-8 bytes of a scalar value (RFC 3629). -/
def utf8OfScalar (n : Nat) : List UInt8 :=
  if n < 0x80 then [n.toUInt8]
  else if n < 0x800 then [(0xC0 + n / 0x40).toUInt8, (0x80 + n % 0x40).toUInt8]
  else if n < 0x10000 then
    [(0xE0 + n / 0x1000).toUInt8, (0x80 + n / 0x40 % 0x40).toUInt8, (0x80 + n % 0x40).toUInt8]
  else
    [(0xF0 + n / 0x40000).toUInt8, (0x80 + n / 0x1000 % 0x40).toUInt8,
      (0x80 + n / 0x40 % 0x40).toUInt8, (0x80 + n % 0x40).toUInt8]

/-- The UTF-8 form of a text, with lone surrogates replaced. -/
def toUtf8 (t : Text) : List UInt8 :=
  (scalars t).flatMap fun n => utf8OfScalar (if 0xD800 ≤ n && n ≤ 0xDFFF then 0xFFFD else n)

/- Character classes of ASCII. -/
def isDigit (u : UInt16) : Bool := unit '0' ≤ u && u ≤ unit '9'
def isUpper (u : UInt16) : Bool := unit 'A' ≤ u && u ≤ unit 'Z'
def isLower (u : UInt16) : Bool := unit 'a' ≤ u && u ≤ unit 'z'
def isLetter (u : UInt16) : Bool := isUpper u || isLower u

def isWord (u : UInt16) : Bool := isLetter u || isDigit u || u == unit '_'

def isWordStart (u : UInt16) : Bool := isLetter u || u == unit '_'

def ofNat (n : Nat) : Text := (Nat.toDigits 10 n).map unit

end Text
end AnnotationIndex
