import AnnotationIndex.Text.Case
import AnnotationIndex.Text.IdentifierTable
import AnnotationIndex.Text.Search

/-!
Bracket expressions of a glob: single units, ranges and named classes between `[` and `]`, all of them taken back by
`!` or `^` at the start.
-/
namespace AnnotationIndex.Glob
open Text

inductive Bracket where
  | exactly (u : UInt16)
  | test (p : UInt16 → Bool)
  | never

namespace Bracket

def isNonAsciiLetter (u : UInt16) : Bool := 0x80 ≤ u && inRows identifierStartRows u.toNat

def isAlpha (u : UInt16) : Bool := isLetter u || isNonAsciiLetter u
def isLowerLetter (u : UInt16) : Bool := isLower u || (0x80 ≤ u && isAlpha u && foldUnit u != u)
def isUpperLetter (u : UInt16) : Bool := isUpper u || (0x80 ≤ u && isAlpha u && mapRows lowerRows u.toNat != u.toNat)
def isControl (u : UInt16) : Bool := u < 0x20 || (0x7F ≤ u && u < 0xA0)
def isSpaceSeparator (u : UInt16) : Bool := isBlank u && 0x20 ≤ u && u != 0x2028 && u != 0x2029 && u != 0xFEFF
def isPunctuation (u : UInt16) : Bool := (ofString "!\"#%&'()*,-./:;?@[\\]_\x7b\x7d").elem u

def named : List (String × (UInt16 → Bool)) := [
  ("[:alnum:]", fun u => isAlpha u || isDigit u), ("[:alpha:]", isAlpha), ("[:ascii:]", fun u => u < 0x80),
  ("[:blank:]", fun u => isSpaceSeparator u || u == 0x09), ("[:cntrl:]", isControl), ("[:digit:]", isDigit),
  ("[:graph:]", fun u => !(isControl u || isSpaceSeparator u)), ("[:lower:]", isLowerLetter),
  ("[:print:]", fun u => !isControl u), ("[:punct:]", isPunctuation),
  ("[:space:]", fun u => isBlank u && u != 0xFEFF), ("[:upper:]", isUpperLetter),
  ("[:word:]", fun u => isAlpha u || isDigit u || u == unit '_'),
  ("[:xdigit:]", fun u => isDigit u || (unit 'a' ≤ u && u ≤ unit 'f') || (unit 'A' ≤ u && u ≤ unit 'F'))]

inductive Member where
  | listed (us : Text)
  | tested (p : UInt16 → Bool)

def Member.holds : Member → UInt16 → Bool
  | listed us => us.elem
  | tested p => p

/- Reads members up to the closing bracket. `started` tells whether one unit has been seen, so that a bracket does
not close at once; `low` is the start of a range; the result has the members and what follows. Nothing means that
the bracket is never closed; a class as the end of a range spoils everything. -/
def membersFrom : (left : Nat) → (started escaping : Bool) → (low : Option UInt16) → List Member → Text →
    Option (Option (List Member) × Text)
  | 0, _, _, _, _, _ => none
  | _ + 1, _, _, _, _, [] => none
  | left + 1, started, escaping, low, ms, u :: rest =>
    if u == unit ']' && started && !escaping then some (some ms, rest)
    else if u == unit '\\' && !escaping then membersFrom left true true low ms rest
    else
      let cls := if u == unit '[' && !escaping then named.find? fun c => startsWith (u :: rest) (ofString c.1) else none
      match cls, low with
      | some _, some _ => some (none, [])
      | some (name, p), none => membersFrom left true escaping none (ms ++ [.tested p]) ((u :: rest).drop name.length)
      | none, some a =>
        let ms := if a < u then ms ++ [.tested fun v => a ≤ v && v ≤ u] else if a = u then ms ++ [.listed [u]] else ms
        membersFrom left true false none ms rest
      | none, none =>
        if startsWith rest (ofString "-]") then membersFrom left true false none (ms ++ [.listed [u, unit '-']])
          (rest.drop 1)
        else if startsWith rest (ofString "-") then membersFrom left true false (some u) ms (rest.drop 1)
        else membersFrom left true false none (ms ++ [.listed [u]]) rest

def read? (inside : Text) : Option (Bracket × Text) :=
  let negated := inside.head? == some (unit '!') || inside.head? == some (unit '^')
  let body := if negated then inside.drop 1 else inside
  match membersFrom (2 * body.length + 2) false false none [] body with
  | none => none
  | some (none, rest) => some (never, rest)
  | some (some ms, rest) =>
    match ms, negated with
    | [], _ => some (never, [])
    | [.listed [u]], false => some (exactly u, rest)
    | ms, _ => some (test fun u => ms.any (fun m => m.holds u) != negated, rest)

end Bracket
end AnnotationIndex.Glob
