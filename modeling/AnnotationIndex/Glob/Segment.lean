import AnnotationIndex.Glob.Bracket
import AnnotationIndex.Path
import AnnotationIndex.Text.Pattern

/-!
One segment of a glob, between slashes: literal text, `*`, `?`, brackets, and groups such as `+(a|b)` or `!(a|b)`.
A wildcard at the start never stands for the segments `.` and `..`.
-/
namespace AnnotationIndex.Glob
open Text

inductive SegmentPart where
  | text (t : Text)
  | group (kind : UInt16) (alternatives : List (List SegmentPart))

namespace SegmentPart

def isGroupKind (u : UInt16) : Bool := (ofString "!?+*@").elem u

def addText (t : Text) (parts : List SegmentPart) : List SegmentPart := if t.isEmpty then parts else .text t :: parts

/-- The length of the bracket whose inside starts here, as far as groups are concerned: they do not start in it. -/
def bracketLength (inside : Text) : Nat :=
  let first := match inside with
    | [] => 0
    | u :: rest =>
      if (u == unit '!' || u == unit '^') && rest.head? == some (unit ']') then 2 else 1
  first + lengthFrom (inside.drop first)
where
  lengthFrom : Text → Nat
    | [] => 0
    | [_] => 1
    | u :: v :: rest =>
      if u == unit ']' then 1 else if u == unit '\\' then 2 + lengthFrom rest else 1 + lengthFrom (v :: rest)

inductive Piece where
  | plain (t rest : Text)
  | opens (kind : UInt16) (rest : Text)
  | bar (rest : Text)
  | closes (rest : Text)

def piece (inGroup : Bool) : Text → Piece
  | [] => .plain [] []
  | [u] => if inGroup && u == unit '|' then .bar [] else if inGroup && u == unit ')' then .closes [] else .plain [u] []
  | u :: v :: rest =>
    if u == unit '\\' then .plain [u, v] rest
    else if u == unit '[' then
      let n := bracketLength (v :: rest)
      .plain (u :: (v :: rest).take n) ((v :: rest).drop n)
    else if isGroupKind u && v == unit '(' then .opens u rest
    else if inGroup && u == unit '|' then .bar (v :: rest)
    else if inGroup && u == unit ')' then .closes (v :: rest)
    else .plain [u] (v :: rest)

mutual

/- The parts of a segment; `held` is the text read so far. -/
def partsFrom : (left : Nat) → (held : Text) → Text → List SegmentPart
  | 0, held, _ => addText held []
  | left + 1, held, t =>
    if t.isEmpty then addText held []
    else
      match piece false t with
      | .plain u rest => partsFrom left (held ++ u) rest
      | .opens kind rest =>
        match groupFrom left [] [] [] rest with
        | some (alternatives, rest) => addText held (.group kind alternatives :: partsFrom left [] rest)
        | none => addText held [.text t]
      | .bar rest => partsFrom left held rest
      | .closes rest => partsFrom left held rest

/- The alternatives of a group and what follows it; nothing when it is not closed. `done` and `parts` hold the
alternatives and the parts of the last one in reverse. -/
def groupFrom : (left : Nat) → (done : List (List SegmentPart)) → (parts : List SegmentPart) → (held : Text) → Text →
    Option (List (List SegmentPart) × Text)
  | 0, _, _, _, _ => none
  | left + 1, done, parts, held, t =>
    if t.isEmpty then none
    else
      match piece true t with
      | .plain u rest => groupFrom left done parts (held ++ u) rest
      | .opens kind rest =>
        match groupFrom left [] [] [] rest with
        | some (alternatives, rest) => groupFrom left done (.group kind alternatives :: addText held parts) [] rest
        | none => none
      | .bar rest => groupFrom left ((addText held parts).reverse :: done) [] [] rest
      | .closes rest => some ((((addText held parts).reverse) :: done).reverse, rest)

end

def ofText (t : Text) : List SegmentPart := partsFrom (t.length + 1) [] t

end SegmentPart

def anyUnit : UInt16 → Bool := fun u => u != Path.slash

def never : Pattern := .notAhead .empty

/- The pattern of a text with wildcards. `left` bounds the units. -/
def wildcardsFrom : (left : Nat) → (nonEmpty : Bool) → Text → Pattern
  | 0, _, _ => .empty
  | _ + 1, _, [] => .empty
  | left + 1, nonEmpty, u :: rest =>
    if u == unit '\\' then
      match rest with
      | [] => .one (· == u)
      | v :: more => .seq (.one (· == v)) (wildcardsFrom left false more)
    else if u == unit '*' then
      .seq (if nonEmpty then .plus anyUnit else .run anyUnit)
        (wildcardsFrom left false (rest.dropWhile (· == unit '*')))
    else if u == unit '?' then .seq (.one anyUnit) (wildcardsFrom left false rest)
    else
      match (if u == unit '[' then Bracket.read? rest else none) with
      | some (.exactly v, more) => .seq (.one (· == v)) (wildcardsFrom left false more)
      | some (.test p, more) => .seq (.one p) (wildcardsFrom left false more)
      | some (.never, _) => never
      | none => .seq (.one (· == u)) (wildcardsFrom left false rest)

def isStars (t : Text) : Bool := !t.isEmpty && t.all (· == unit '*')

/-- The pattern of a text; where the whole segment starts and ends in its sequence, stars alone take a unit. -/
def wildcards (whole : Bool) (t : Text) : Pattern := wildcardsFrom t.length (whole && isStars t) t

def startsWild (t : Text) : Bool :=
  match t with
  | [] => false
  | u :: rest =>
    u == unit '*' || u == unit '?' ||
      (u == unit '[' && match Bracket.read? rest with
        | some (.test _, _) => true
        | _ => false)

/-- Whether a text could stand for `.` or `..` through a wildcard. -/
def mayBeDots (t : Text) : Bool :=
  startsWild t || (startsWith t (ofString ".") && startsWild (t.drop 1)) ||
    (startsWith t (ofString "..") && startsWild (t.drop 2))

def dots : Pattern := .seq (.one (· == unit '.')) (.seq (.opt (.one (· == unit '.'))) .atEnd)

def notDots (parts : List SegmentPart) : Pattern :=
  match parts with
  | .text t :: _ => if mayBeDots t then .notAhead dots else .empty
  | _ => .empty

/-- The pattern of a group: `!` is anything but its alternatives followed by what follows the group. -/
def groupPattern (kind : UInt16) (alternatives : List Pattern) (behind : Pattern) : Pattern :=
  let one := Pattern.anyOf alternatives
  if kind == unit '!' then .seq (.notAhead (.seq one (.seq behind .atEnd))) (.run anyUnit)
  else if kind == unit '?' then .opt one
  else if kind == unit '+' then .seq one (.star one)
  else if kind == unit '*' then .star one
  else one

mutual

/- The pattern of the parts from one on. `starts` and `ends` tell whether the sequence starts and ends the segment,
`first` whether only negations come before; `tail` is what follows the sequence. -/
def sequencePattern (starts ends : Bool) (tail : Pattern) : (first : Bool) → List SegmentPart → Pattern
  | _, [] => .empty
  | _, .text t :: rest => .seq (wildcards (starts && ends) t) (sequencePattern starts ends tail false rest)
  | first, .group kind alternatives :: rest =>
    let after := sequencePattern starts ends tail (first && kind == unit '!') rest
    let behind := Pattern.seq after tail
    let closes := kind == unit '!' || (ends && rest.isEmpty)
    let body := alternativePatterns (starts && first) closes behind alternatives
    let kept := if starts && first && ends && rest.isEmpty then (body.filter (·.2)).map (·.1) else body.map (·.1)
    let group :=
      if kind == unit '!' && alternatives.all (·.isEmpty) then .plus anyUnit else groupPattern kind kept behind
    .seq group after

/- The pattern of each alternative, and whether anything is written in it. -/
def alternativePatterns (starts ends : Bool) (tail : Pattern) : List (List SegmentPart) → List (Pattern × Bool)
  | [] => []
  | parts :: rest =>
    (.seq (if starts then notDots parts else .empty) (sequencePattern starts ends tail true parts), !parts.isEmpty) ::
      alternativePatterns starts ends tail rest

end

inductive Segment where
  | anyDirectories
  | literal (t : Text)
  | suffix (t : Text)
  | sized (length : Nat) (suffix : Text)
  | named
  | dotted
  | hidden
  | pattern (p : Pattern)

namespace Segment

def isDots (t : Text) : Bool := t == ofString "." || t == ofString ".."

/-- Units that make a suffix after wildcards more than literal. -/
def isPlain (t : Text) : Bool := t.all fun u => !(ofString "+@!?*[(").elem u

def stars (t : Text) : Text := t.dropWhile (· == unit '*')

def literalFrom : (left : Nat) → Text → Option Text
  | 0, _ => some []
  | _ + 1, [] => some []
  | left + 1, u :: rest =>
    if u == unit '\\' then
      match rest with
      | [] => some [u]
      | v :: more => (literalFrom left more).map (v :: ·)
    else if u == unit '*' || u == unit '?' then none
    else
      match (if u == unit '[' then Bracket.read? rest else none) with
      | some (.exactly v, more) => (literalFrom left more).map (v :: ·)
      | some _ => none
      | none => (literalFrom left rest).map (u :: ·)

def literal? : List SegmentPart → Option Text
  | [] => some []
  | [.text t] => literalFrom t.length t
  | _ => none

def ofText (t : Text) : Segment :=
  if t == ofString "**" then anyDirectories
  else if t.isEmpty then literal []
  else
    let afterStars := stars t
    let afterMarks := t.dropWhile (· == unit '?')
    if isStars t then named
    else if afterStars.length < t.length && isPlain afterStars then suffix afterStars
    else if afterMarks.length < t.length && isPlain afterMarks then sized t.length afterMarks
    else if afterStars.length < t.length && afterStars.head? == some (unit '.') &&
      isStars (afterStars.drop 1) then dotted
    else if t.head? == some (unit '.') && isStars (t.drop 1) then hidden
    else
      let parts := SegmentPart.ofText t
      match literal? parts with
      | some t => literal t
      | none => pattern (.seq (notDots parts) (.seq (sequencePattern true true .empty true parts) .atEnd))

def isMatch (s : Segment) (t : Text) : Bool :=
  match s with
  | anyDirectories => !isDots t
  | literal u => t == u
  | suffix u => endsWith t u
  | sized n u => t.length == n && !isDots t && endsWith t u
  | named => !t.isEmpty && !isDots t
  | dotted => !isDots t && t.elem (unit '.')
  | hidden => !isDots t && t.head? == some (unit '.')
  | pattern p => p.starts t

end Segment
end AnnotationIndex.Glob
