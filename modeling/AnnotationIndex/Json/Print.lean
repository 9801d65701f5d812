import AnnotationIndex.Json.Value
import AnnotationIndex.Number.Decimal
import AnnotationIndex.Text.Order
import AnnotationIndex.Text.Search

/-!
Writing values. The stable form sorts the keys of every object and is the canonical text of a value;
the compact form keeps the order of keys and has no white space, the spread form keeps it too and
gives every member a line.
-/
namespace AnnotationIndex.Json
open AnnotationIndex.Text (unit)

def hexDigit (n : Nat) : UInt16 :=
  if n < 10 then (48 + n).toUInt16 else (87 + n).toUInt16

def escapeUnit (u : UInt16) : Text :=
  let n := u.toNat
  unit '\\' :: unit 'u' ::
    [hexDigit (n / 0x1000), hexDigit (n / 0x100 % 16), hexDigit (n / 0x10 % 16), hexDigit (n % 16)]

def shortEscape? (u : UInt16) : Option UInt16 :=
  if u == 0x22 then some 0x22
  else if u == 0x5C then some 0x5C
  else if u == 0x08 then some (unit 'b')
  else if u == 0x0C then some (unit 'f')
  else if u == 0x0A then some (unit 'n')
  else if u == 0x0D then some (unit 'r')
  else if u == 0x09 then some (unit 't')
  else none

def quoteUnit (u : UInt16) : Text :=
  match shortEscape? u with
  | some e => [unit '\\', e]
  | none => if u < 0x20 || Text.isSurrogate u then escapeUnit u else [u]

/- A surrogate pair is written as it is, a lone surrogate as an escape. -/
def quoteBody : Text → Text
  | [] => []
  | [u] => quoteUnit u
  | u :: v :: rest =>
    if Text.isHighSurrogate u && Text.isLowSurrogate v then u :: v :: quoteBody rest
    else quoteUnit u ++ quoteBody (v :: rest)

def quote (t : Text) : Text := unit '"' :: (quoteBody t ++ [unit '"'])

/-- A number that is not finite is written as `null`. -/
def numberText : Number → Text
  | .finite m e => (Number.finite m e).toText
  | _ => "null"

def newline (indent : Nat) : Text := if indent = 0 then [] else [0x0A]
def colon (indent : Nat) : Text := if indent = 0 then ":" else ": "

def enclose (openBracket closeBracket : Char) (indent depth : Nat) (members : List Text) : Text :=
  match members with
  | [] => [unit openBracket, unit closeBracket]
  | _ =>
    let inner := Text.spaces (indent * (depth + 1))
    unit openBracket :: (newline indent ++
      Text.join (unit ',' :: newline indent) (members.map (inner ++ ·)) ++
      newline indent ++ Text.spaces (indent * depth) ++ [unit closeBracket])

mutual
def write (indent : Nat) (depth : Nat) : Json → Text
  | null => "null"
  | bool true => "true"
  | bool false => "false"
  | num n => numberText n
  | str t => quote t
  | arr items => enclose '[' ']' indent depth (writeItems indent (depth + 1) items)
  | obj fs =>
    enclose '\x7b' '\x7d' indent depth
      ((Text.sortByKey (writeFields indent (depth + 1) fs)).map fun e =>
        quote e.1 ++ colon indent ++ e.2)
def writeItems (indent depth : Nat) : List Json → List Text
  | [] => []
  | v :: rest => write indent depth v :: writeItems indent depth rest
def writeFields (indent depth : Nat) : List (Text × Json) → List (Text × Text)
  | [] => []
  | (k, v) :: rest => (k, write indent depth v) :: writeFields indent depth rest
end

def stableText (indent : Nat) (v : Json) : Text := write indent 0 v

mutual
def compact : Json → Text
  | null => "null"
  | bool true => "true"
  | bool false => "false"
  | num n => numberText n
  | str t => quote t
  | arr items => unit '[' :: (Text.join "," (compactItems items) ++ "]")
  | obj fs => unit '\x7b' :: (Text.join "," (compactFields fs) ++ [unit '\x7d'])
def compactItems : List Json → List Text
  | [] => []
  | v :: rest => compact v :: compactItems rest
def compactFields : List (Text × Json) → List Text
  | [] => []
  | (k, v) :: rest => (quote k ++ (unit ':' :: compact v)) :: compactFields rest
end

mutual
/- The text of a value that stands at a depth, keys in their own order. -/
def spreadAt (depth : Nat) : Json → Text
  | null => "null"
  | bool true => "true"
  | bool false => "false"
  | num n => numberText n
  | str t => quote t
  | arr items => enclose '[' ']' 2 depth (spreadItems (depth + 1) items)
  | obj fs => enclose '\x7b' '\x7d' 2 depth (spreadFields (depth + 1) fs)
def spreadItems (depth : Nat) : List Json → List Text
  | [] => []
  | v :: rest => spreadAt depth v :: spreadItems depth rest
def spreadFields (depth : Nat) : List (Text × Json) → List Text
  | [] => []
  | (k, v) :: rest => (quote k ++ colon 2 ++ spreadAt depth v) :: spreadFields depth rest
end

def spread (v : Json) : Text := spreadAt 0 v

end AnnotationIndex.Json
