import AnnotationIndex.Path
import AnnotationIndex.Text.Case
import AnnotationIndex.Text.Pattern

/-!
Rules of an ignore file. Each line is a pattern over paths, case aside; a line that starts with `!` takes back what
earlier lines ignore. The later rule decides, except that nothing below an ignored directory can be taken back.
-/
namespace AnnotationIndex
open Text

structure IgnoreRule where
  takesBack : Bool
  pattern : Pattern

namespace IgnoreRule

def backslash : UInt16 := unit '\\'
def star : UInt16 := unit '*'

def isSlash (u : UInt16) : Bool := u == Path.slash

def notSlash : UInt16 → Bool := fun u => !isSlash u

def eitherCase (u : UInt16) : Pattern := .one fun v => foldUnit u == foldUnit v

/-- The end of a path, or the slash at the end of a directory. -/
def closing : Pattern := .ahead (.alt .atEnd (.seq (.one isSlash) .atEnd))

def never : Pattern := .notAhead .empty

/- White space at the end is dropped; of what a backslash holds, one space stays. -/
def trimPattern (t : Text) : Text :=
  let kept := trimEnd t
  let slashes := (kept.reverse.takeWhile (· == backslash)).length
  if kept.length < t.length && slashes % 2 = 1 then kept ++ [0x20] else kept

/- Backslashes before white space stand for half as many, and the white space for a space. `held` counts the
backslashes passed over. -/
def joinBlanks (held : Nat) : Text → Text
  | [] => List.replicate held backslash
  | u :: rest =>
    if u == backslash then joinBlanks (held + 1) rest
    else if isBlank u && 0 < held then
      List.replicate (held - held % 2) backslash ++ 0x20 :: joinBlanks 0 rest
    else List.replicate held backslash ++ u :: joinBlanks 0 rest

/- The members of a class: single units and ranges; a range against the order has none. -/
def classTests : Text → List (UInt16 → Bool)
  | [] => []
  | [u] => [fun v => foldUnit u == foldUnit v]
  | [u, v] => [fun w => foldUnit u == foldUnit w, fun w => foldUnit v == foldUnit w]
  | u :: v :: w :: rest =>
    if v == unit '-' then (inRange u w) :: classTests rest
    else (fun x => foldUnit u == foldUnit x) :: classTests (v :: w :: rest)
where
  inRange (low high : UInt16) : UInt16 → Bool := fun x =>
    let within (y : UInt16) := low ≤ y && y ≤ high
    within x || within (foldUnit x) || (isUpper x && within (x + 32))

def unescape : Text → Text
  | [] => []
  | [u] => [u]
  | u :: v :: rest => if u == backslash then v :: unescape rest else u :: unescape (v :: rest)

def classPattern (members : Text) : Pattern :=
  let slashes := (members.reverse.takeWhile (· == backslash)).length
  if slashes % 2 = 1 then never
  else
    match members with
    | [] => never
    | u :: rest =>
      if u == unit '!' then .one fun v => !(classTests (unescape rest)).any (· v)
      else .one fun v => (classTests (unescape members)).any (· v)

/-- The class that a bracket opens and what follows it. A class that does not end matches nothing. -/
def classAt (t : Text) : Pattern × Text :=
  let members := t.takeWhile fun u => u != unit ']'
  match t.drop members.length with
  | _ :: rest => if members.any isSlash then (never, rest) else (classPattern members, rest)
  | [] => (never, [])

def directories : Pattern := .star (.seq (.one isSlash) (.seq (.one notSlash) (.run notSlash)))

/- The pattern of the units that follow; `left` bounds their number, `afterSlash` tells what comes before. -/
def compile : (left : Nat) → (afterSlash : Bool) → Text → Pattern
  | 0, _, _ => closing
  | _ + 1, _, [] => closing
  | left + 1, afterSlash, u :: rest =>
    if isSlash u then
      match rest with
      | [] => .seq (.one isSlash) .atEnd
      | [v, w] =>
        if v == star && w == star then .seq (.one isSlash) (.seq (.one (!isLineTerminator ·))
          (.seq Pattern.rest closing))
        else .seq (.one isSlash) (compile left true rest)
      | v :: w :: x :: more =>
        if v == star && w == star && isSlash x then .seq directories (compile left false (x :: more))
        else .seq (.one isSlash) (compile left true rest)
      | _ => .seq (.one isSlash) (compile left true rest)
    else if u == star then
      if rest.isEmpty then .seq (if afterSlash then .seq (.one notSlash) (.run notSlash) else .run notSlash) closing
      else .seq (.run notSlash) (compile left false rest)
    else if u == unit '?' then .seq (.one notSlash) (compile left false rest)
    else if u == unit '[' then
      let (p, rest) := classAt rest
      .seq p (compile left false rest)
    else if u == backslash then
      match rest with
      | [] => .seq (eitherCase u) closing
      | v :: more =>
        if v == star && more.isEmpty then .seq (.run notSlash) closing
        else if v == unit '?' then never
        else .seq (eitherCase v) (compile left false more)
    else .seq (eitherCase u) (compile left false rest)

def hasInnerSlash (t : Text) : Bool := t.dropLast.any isSlash

def everyDirectory : Pattern := .opt (.seq (.run fun u => !isLineTerminator u) (.one isSlash))

/-- What a body is about: a slash at its start or inside binds it to the root, otherwise it may stand at any depth. -/
def patternOf (body : Text) : Pattern :=
  if body.isEmpty then .empty
  else
    let t := joinBlanks 0 (trimPattern (dropHead [0xFEFF] body))
    let rooted := t.head?.any isSlash
    let rest := if rooted then t.drop 1 else t
    let anywhere := startsWith rest (ofString "**/")
    let start : Pattern :=
      if anywhere then .seq .atStart everyDirectory
      else if rooted || hasInnerSlash body then .atStart
      else .alt .atStart (.one isSlash)
    let rest := if anywhere then rest.drop 3 else rest
    .seq start (compile (rest.length + 1) false rest)

/-- A line that states no rule: a comment, blank, or with a lone backslash at its end. -/
def isNoRule (line : Text) : Bool :=
  line.all isBlank || line.head? == some (unit '#') ||
    (let slashes := (line.reverse.takeWhile (· == backslash)).length; slashes = 1)

def ofLine? (line : Text) : Option IgnoreRule :=
  if isNoRule line then none
  else
    let takesBack := line.head? == some (unit '!')
    let body := if takesBack then line.drop 1 else line
    let body := if startsWith body (ofString "\\!") then body.drop 1 else body
    let body := if startsWith body (ofString "\\#") then body.drop 1 else body
    some ⟨takesBack, patternOf body⟩

def isMatch (r : IgnoreRule) (path : Text) : Bool := r.pattern.occursIn path

end IgnoreRule

structure IgnoreRules where
  lines : List Text
  rules : List IgnoreRule

inductive IgnoreFault where
  | emptyPath
  | notRelative (path : Text)
  deriving DecidableEq

def IgnoreFault.message : IgnoreFault → Text
  | emptyPath => "path must not be empty"
  | notRelative path => "path should be a `path.relative()`d string, but got \"" ++ path ++ "\""

namespace IgnoreRules

def fileName : Text := ".acpignore"

def ofLines (lines : List Text) : IgnoreRules := ⟨lines, lines.filterMap IgnoreRule.ofLine?⟩

def linesOf (t : Text) : List Text :=
  ((splitOn 0x0A t).map trim).filter fun line => !(line.isEmpty || line.head? == some (unit '#'))

def ofText (t : Text) : IgnoreRules := ofLines (linesOf t)

/-- What the rules say of one path, in their order: a rule only counts where it changes the answer. -/
def decide (rs : IgnoreRules) (path : Text) : Bool :=
  rs.rules.foldl (fun ignored r => if r.takesBack == ignored && r.isMatch path then !ignored else ignored) false

/- `above` holds the names of the directories passed, with a slash after each. -/
def decideFrom (rs : IgnoreRules) (whole above : Text) : List Text → Bool
  | [] => rs.decide whole
  | [_] => rs.decide whole
  | s :: rest =>
    let directory := above ++ s ++ [Path.slash]
    rs.decide directory || decideFrom rs whole directory rest

def covers (rs : IgnoreRules) (path : Text) : Bool :=
  rs.decideFrom path [] ((splitOn Path.slash path).filter fun s => !s.isEmpty)

/- Empty, absolute, or led by a dot segment. -/
def isOutside (path : Text) : Bool :=
  path == (".." : Text) || path == ("." : Text) || Path.isAbsolute path ||
    startsWith path (ofString "./") || startsWith path (ofString "../")

def ignores (rs : IgnoreRules) (path : Text) : Except IgnoreFault Bool :=
  let path := replaceUnit (unit '\\') Path.slash path
  if path.isEmpty then .error .emptyPath
  else if isOutside path then .error (.notRelative path)
  else .ok (rs.covers path)

end IgnoreRules
end AnnotationIndex
