import AnnotationIndex.Number.Decimal
import AnnotationIndex.Text.Search

/-!
Braces of a glob: `{a,b}` stands for each of its parts, `{1..3}` and `{a..c}` for a sequence. A glob with braces
is the list of the globs without them; what a backslash escapes is no brace, comma or point.
-/
namespace AnnotationIndex.Glob
open Text

structure BraceUnit where
  unit : UInt16
  escaped : Bool
  deriving DecidableEq

namespace Brace

def isSign (c : Char) (u : BraceUnit) : Bool := u.unit == Text.unit c && !u.escaped

def plain (t : Text) : List BraceUnit := t.map fun u => ⟨u, false⟩

/-- Reads escapes: a backslash before one of these signs or before a backslash. -/
def ofText : Text → List BraceUnit
  | [] => []
  | [u] => [⟨u, false⟩]
  | u :: v :: rest =>
    if u == unit '\\' && (ofString "\\\x7b\x7d,.").elem v then ⟨v, true⟩ :: ofText rest
    else ⟨u, false⟩ :: ofText (v :: rest)

def toText (us : List BraceUnit) : Text := us.map (·.unit)

/- The pair of braces to look at: the first one that closes all it opens, and else the leftmost that is closed.
`opened` holds the places of braces still open, `best` the leftmost pair closed so far. -/
def pairFrom : (opened : List Nat) → (best : Option (Nat × Nat)) → Nat → List BraceUnit → Option (Nat × Nat)
  | _, best, _, [] => best
  | opened, best, i, u :: rest =>
    if isSign '\x7b' u then pairFrom (i :: opened) best (i + 1) rest
    else if isSign '\x7d' u then
      match opened with
      | [] => pairFrom [] best (i + 1) rest
      | [first] => some (first, i)
      | inner :: outer =>
        let leftmost := match best with
          | some (left, _) => if inner < left then some (inner, i) else best
          | none => some (inner, i)
        pairFrom outer leftmost (i + 1) rest
    else pairFrom opened best (i + 1) rest

def split? (us : List BraceUnit) : Option (List BraceUnit × List BraceUnit × List BraceUnit) :=
  (pairFrom [] none 0 us).map fun (l, r) => (us.take l, (us.take r).drop (l + 1), us.drop (r + 1))

def embrace (us : List BraceUnit) : List BraceUnit :=
  ⟨unit '\x7b', false⟩ :: us ++ [⟨unit '\x7d', false⟩]

/- The parts between commas outside inner braces; `left` bounds the pairs. -/
def commaParts : (left : Nat) → List BraceUnit → List (List BraceUnit)
  | 0, us => [us]
  | left + 1, us =>
    match split? us with
    | none => atCommas us
    | some (before, body, behind) =>
      let front := atCommas before
      let joined := front.getLast?.getD [] ++ embrace body
      match (if behind.isEmpty then [[]] else commaParts left behind) with
      | [] => front.dropLast ++ [joined]
      | next :: more => front.dropLast ++ (joined ++ next) :: more
where
  atCommas : List BraceUnit → List (List BraceUnit)
    | [] => [[]]
    | u :: rest =>
      if isSign ',' u then [] :: atCommas rest
      else
        match atCommas rest with
        | [] => [[u]]
        | part :: more => (u :: part) :: more

def int? (t : Text) : Option Int :=
  match t with
  | [] => none
  | u :: ds =>
    let (negative, ds) := if u == unit '-' then (true, ds) else (false, t)
    if !ds.isEmpty && ds.all isDigit then
      let n : Int := Number.digitsValue ds
      some (if negative then -n else n)
    else none

def isLetterText (t : Text) : Bool := t.length == 1 && t.all isLetter

def isPadded (t : Text) : Bool :=
  match dropHead [unit '-'] t with
  | u :: v :: _ => u == unit '0' && isDigit v
  | _ => false

def padded (width : Nat) (n : Int) : Text :=
  let digits := Text.ofNat n.natAbs
  let zeros (w : Nat) := List.replicate (w - digits.length) (unit '0')
  if n < 0 then unit '-' :: (zeros (width - 1) ++ digits) else zeros width ++ digits

def steps (first last : Int) (step : Nat) : List Int :=
  let step := max step 1
  let sign : Int := if last < first then -1 else 1
  (List.range ((last - first).natAbs / step + 1)).map fun (k : Nat) => first + sign * (k * step : Nat)

def sequence? (body : List BraceUnit) : Option (List Text) := do
  if body.any (·.escaped) then none
  let parts := splitText (ofString "..") (toText body)
  let (first, last, step) ← match parts with
    | [a, b] => some (a, b, ofString "1")
    | [a, b, c] => some (a, b, c)
    | _ => none
  let step := (← int? step).natAbs
  match int? first, int? last with
  | some m, some n =>
    let width := max first.length last.length
    let pads := parts.any isPadded
    return (steps m n step).map fun k => padded (if pads then width else 0) k
  | _, _ =>
    if isLetterText first && isLetterText last then
      let code (t : Text) : Int := ((t.head?.getD 0).toNat : Nat)
      return (steps (code first) (code last) step).map fun k =>
        if k.toNat = 0x5C then [] else [k.toNat.toUInt16]
    else none

/-- Whether a comma, not doubled, and a closing brace after it on its line follow: then the pair before is no list. -/
def closesLater : List BraceUnit → Bool
  | [] => false
  | u :: rest =>
    (isSign ',' u && !(rest.head?.any (isSign ',')) &&
      (rest.takeWhile fun v => !isLineTerminator v.unit).any (isSign '\x7d')) || closesLater rest

def closedAsText (before body behind : List BraceUnit) : List BraceUnit :=
  before ++ ⟨unit '\x7b', false⟩ :: body ++ ⟨unit '\x7d', true⟩ :: behind

/- Each expansion uses up a pair of braces; `left` bounds them. -/
def expandFrom : (left : Nat) → (top : Bool) → List BraceUnit → List (List BraceUnit)
  | 0, _, us => [us]
  | left + 1, top, us =>
    match split? us with
    | none => [us]
    | some (before, body, behind) =>
      let tails := if behind.isEmpty then [[]] else expandFrom left false behind
      if before.getLast?.any (isSign '$') then tails.map fun t => before ++ embrace body ++ t
      else
        let combine (keepEmpty : Bool) (middles : List (List BraceUnit)) :=
          (middles.flatMap fun m => tails.map fun t => before ++ m ++ t).filter fun e => keepEmpty || !e.isEmpty
        match sequence? body with
        | some items => combine true (items.map plain)
        | none =>
          if body.any (isSign ',') then
            match commaParts body.length body with
            | [part] =>
              match (expandFrom left false part).map embrace with
              | [one] => tails.map fun t => before ++ one ++ t
              | parts => combine (!top) (parts.flatMap (expandFrom left false))
            | parts => combine (!top) (parts.flatMap (expandFrom left false))
          else if closesLater behind then expandFrom left false (closedAsText before body behind)
          else [us]

/-- Whether braces are opened and closed again on one line. -/
def hasPair (t : Text) : Bool :=
  (splitOn (unit '\x7b') t).tail.any fun piece =>
    (piece.takeWhile fun u => !isLineTerminator u).elem (unit '\x7d')

def expand (t : Text) : List Text :=
  if hasPair t then
    let t := if startsWith t (ofString "\x7b\x7d") then ofString "\\\x7b\\\x7d" ++ t.drop 2 else t
    (expandFrom (2 * t.length + 8) true (ofText t)).map toText
  else [t]

end Brace
end AnnotationIndex.Glob
