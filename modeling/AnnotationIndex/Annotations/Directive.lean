import AnnotationIndex.Annotations.Block
import AnnotationIndex.LineSpan

/-!
Directive lines: `@acp:` and a namespace, perhaps a sub-namespace, parameters, and after a dash that
stands alone the directive text. Parameters are words, or texts in double quotes.
-/
namespace AnnotationIndex
open Text

structure DirectiveLine where
  nameSpace : Text
  subNamespace : Option Text
  parameterText : Text
  parameters : List Text
  value : Text
  directive : Text
  deriving DecidableEq

namespace DirectiveLine

def isNameUnit (u : UInt16) : Bool := isWord u || u == unit '-'

/- Words and quoted texts: a quote opens a quoted text where a word could start, if another quote
follows; otherwise it is part of a word. -/
inductive Reading where
  | between
  | word (taken : Text)
  | quoted (taken : Text)

def tokensFrom : Reading → Text → List Text
  | .between, [] => []
  | .word taken, [] => [taken.reverse]
  | .quoted taken, [] => [taken.reverse]
  | .between, u :: rest =>
    if u == unit '"' && has rest (unit '"') then tokensFrom (.quoted []) rest
    else if isBlank u then tokensFrom .between rest
    else tokensFrom (.word [u]) rest
  | .word taken, u :: rest =>
    if isBlank u then taken.reverse :: tokensFrom .between rest
    else tokensFrom (.word (u :: taken)) rest
  | .quoted taken, u :: rest =>
    if u == unit '"' then taken.reverse :: tokensFrom .between rest
    else tokensFrom (.quoted (u :: taken)) rest

def tokens (t : Text) : List Text := tokensFrom .between t

def unquote (t : Text) : Text :=
  if 2 ≤ t.length && t.head? == some (unit '"') && t.getLast? == some (unit '"') then
    (t.drop 1).dropLast
  else t

/- Cuts at the first dash outside quotes that has a blank or an end on both sides. `before` is the unit
just passed, and the units passed so far are held in reverse. -/
def cutFrom : (inQuote : Bool) → (before : UInt16) → (passed rest : Text) → Text × Text
  | _, _, passed, [] => (passed.reverse, [])
  | inQuote, before, passed, u :: rest =>
    if u == unit '"' then cutFrom (!inQuote) u (u :: passed) rest
    else if !inQuote && u == unit '-' && isBlank before && isBlank (rest.headD 0x20) then
      (passed.reverse, rest)
    else cutFrom inQuote u (u :: passed) rest

def cut (t : Text) : Text × Text :=
  let (parameters, directive) := cutFrom false 0x20 [] t
  (trim parameters, trim directive)

/-- Splits `@acp:name` or `@acp:name:name` from what follows it, a blank or the end. -/
def header? (t : Text) : Option (Text × Option Text × Text) :=
  if !startsWith t sigil then none
  else
    let t := t.drop sigil.length
    let nameSpace := t.takeWhile isNameUnit
    let (sub, after) :=
      match t.dropWhile isNameUnit with
      | u :: more =>
        let sub := more.takeWhile isNameUnit
        if u == unit ':' && !sub.isEmpty then (some sub, more.dropWhile isNameUnit) else (none, u :: more)
      | [] => (none, [])
    if nameSpace.isEmpty || !isBlank (after.headD 0x20) || after.any isLineTerminator then none
    else some (nameSpace, sub, after)

def parse? (body : Text) : Option DirectiveLine :=
  (header? (trim body)).map fun (nameSpace, subNamespace, after) =>
    let (parameterText, directive) := cut after
    { nameSpace, subNamespace, parameterText, parameters := tokens parameterText,
      value := unquote (trim parameterText), directive }

def toJson (d : DirectiveLine) (line : Int) : Json :=
  Json.fields [
    ("namespace", some (.str d.nameSpace)),
    ("subNamespace", d.subNamespace.map .str),
    ("paramText", some (.str d.parameterText)),
    ("parameters", some (Json.texts d.parameters)),
    ("value", some (.str d.value)),
    ("directive", some (.str d.directive)),
    ("lineSpan", some (LineSpan.single line).toJson)]

end DirectiveLine
end AnnotationIndex
