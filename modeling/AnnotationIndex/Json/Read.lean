import AnnotationIndex.Json.Value
import AnnotationIndex.Number.Decimal

/-!
Reading values: the strict grammar of RFC 8259, with nothing before or after the value but its four
kinds of white space. A key given twice keeps its first place and its last value.
-/
namespace AnnotationIndex.Json
open AnnotationIndex.Text (unit isDigit)

def isSpace (u : UInt16) : Bool := u == 0x20 || u == 0x09 || u == 0x0A || u == 0x0D

def skipSpace (t : Text) : Text := t.dropWhile isSpace

def hexValue? (u : UInt16) : Option Nat :=
  if isDigit u then some (u.toNat - 48)
  else if unit 'a' ≤ u && u ≤ unit 'f' then some (u.toNat - 87)
  else if unit 'A' ≤ u && u ≤ unit 'F' then some (u.toNat - 55)
  else none

def hex4? : Text → Option (UInt16 × Text)
  | a :: b :: c :: d :: rest => do
    let a ← hexValue? a
    let b ← hexValue? b
    let c ← hexValue? c
    let d ← hexValue? d
    pure ((a * 0x1000 + b * 0x100 + c * 0x10 + d).toUInt16, rest)
  | _ => none

def unescape? (u : UInt16) : Option UInt16 :=
  if u == 0x22 || u == 0x5C || u == unit '/' then some u
  else if u == unit 'b' then some 0x08
  else if u == unit 'f' then some 0x0C
  else if u == unit 'n' then some 0x0A
  else if u == unit 'r' then some 0x0D
  else if u == unit 't' then some 0x09
  else none

def readString : Nat → Text → Option (Text × Text)
  | 0, _ => none
  | _, [] => none
  | fuel + 1, u :: rest =>
    if u == 0x22 then some ([], rest)
    else if u < 0x20 then none
    else if u == 0x5C then
      match rest with
      | [] => none
      | e :: rest =>
        if e == unit 'u' then
          match hex4? rest with
          | some (v, rest) => (readString fuel rest).map fun (s, rest) => (v :: s, rest)
          | none => none
        else
          match unescape? e with
          | some v => (readString fuel rest).map fun (s, rest) => (v :: s, rest)
          | none => none
    else (readString fuel rest).map fun (s, rest) => (u :: s, rest)

def readFraction (t : Text) : Option (Text × Text) :=
  match t with
  | u :: rest =>
    if u == unit '.' then
      let ds := rest.takeWhile isDigit
      if ds.isEmpty then none else some (ds, rest.dropWhile isDigit)
    else some ([], t)
  | [] => some ([], t)

def readExponent (t : Text) : Option (Int × Text) :=
  match t with
  | u :: rest =>
    if u == unit 'e' || u == unit 'E' then
      let (negative, rest) :=
        match rest with
        | s :: more =>
          if s == unit '-' then (true, more) else if s == unit '+' then (false, more) else (false, rest)
        | [] => (false, rest)
      let ds := rest.takeWhile isDigit
      if ds.isEmpty then none
      else
        let n : Int := Number.digitsValue ds
        some (if negative then -n else n, rest.dropWhile isDigit)
    else some (0, t)
  | [] => some (0, t)

def readNumber (t : Text) : Option (Number × Text) := do
  let (negative, t) :=
    match t with
    | u :: rest => if u == unit '-' then (true, rest) else (false, t)
    | [] => (false, t)
  let whole := t.takeWhile isDigit
  if whole.isEmpty || (whole.length > 1 && whole.head? == some (unit '0')) then none
  else
    let (fraction, t) ← readFraction (t.dropWhile isDigit)
    let (exponent, t) ← readExponent t
    pure (Number.ofParts negative whole fraction exponent, t)

mutual
/- The fuel bounds the length of the text still to be read. -/
def readValue : Nat → Text → Option (Json × Text)
  | 0, _ => none
  | fuel + 1, t =>
    match skipSpace t with
    | [] => none
    | u :: rest =>
      if u == unit '"' then (readString (rest.length + 1) rest).map fun (s, rest) => (str s, rest)
      else if u == unit '[' then
        match skipSpace rest with
        | v :: more =>
          if v == unit ']' then some (arr [], more)
          else (readItems fuel rest).map fun (items, rest) => (arr items, rest)
        | [] => none
      else if u == unit '\x7b' then
        match skipSpace rest with
        | v :: more =>
          if v == unit '\x7d' then some (obj [], more)
          else (readFields fuel rest).map fun (fs, rest) => (obj (Table.ofList fs), rest)
        | [] => none
      else if (Text.ofString "null").isPrefixOf (u :: rest) then some (null, rest.drop 3)
      else if (Text.ofString "true").isPrefixOf (u :: rest) then some (bool true, rest.drop 3)
      else if (Text.ofString "false").isPrefixOf (u :: rest) then some (bool false, rest.drop 4)
      else (readNumber (u :: rest)).map fun (n, rest) => (num n, rest)
def readItems : Nat → Text → Option (List Json × Text)
  | 0, _ => none
  | fuel + 1, t =>
    match readValue fuel t with
    | none => none
    | some (v, rest) =>
      match skipSpace rest with
      | u :: rest =>
        if u == unit ']' then some ([v], rest)
        else if u == unit ',' then (readItems fuel rest).map fun (vs, rest) => (v :: vs, rest)
        else none
      | [] => none
def readFields : Nat → Text → Option (List (Text × Json) × Text)
  | 0, _ => none
  | fuel + 1, t =>
    match skipSpace t with
    | [] => none
    | u :: rest =>
      if u == unit '"' then
        match readString (rest.length + 1) rest with
        | none => none
        | some (k, rest) =>
          match skipSpace rest with
          | c :: rest =>
            if c == unit ':' then
              match readValue fuel rest with
              | none => none
              | some (v, rest) =>
                match skipSpace rest with
                | d :: rest =>
                  if d == unit '\x7d' then some ([(k, v)], rest)
                  else if d == unit ',' then
                    (readFields fuel rest).map fun (fs, rest) => ((k, v) :: fs, rest)
                  else none
                | [] => none
            else none
          | [] => none
      else none
end

def parse (t : Text) : Option Json :=
  match readValue (2 * t.length + 2) t with
  | some (v, rest) => if (skipSpace rest).isEmpty then some v else none
  | none => none

end AnnotationIndex.Json
