import AnnotationIndex.Outline.Script.BindingGrammar

/-!
Classes: their heritage and their members.
-/
namespace AnnotationIndex.Script
open Text

def memberModifiers : List String :=
  ["public", "private", "protected", "static", "abstract", "override", "readonly", "declare", "async",
    "accessor", "const", "export"]

def canFollowModifier : Parser Bool := do
  return (← atMemberName) || (← atAnySign ["\x7b", "*", "..."])

/- Only `static`, `get` and `set` may stand on another line than what they modify. -/
def atModifier (words : List String) (anyLine : List String) : Parser Bool := do
  if ← atAnyWord anyLine then then? canFollowModifier
  else if ← atAnyWord words then then? (onSameLine canFollowModifier)
  else return false

def modifiersOfMember (rules : Rules) : Parser (List Text × List Node) := do
  let items ← repeatWhile (do
      let isBlock ← (do return (← atWord "static") && (← then? (atSign "\x7b")))
      return (← atSign "@") || (!isBlock && (← atModifier memberModifiers ["static"]))) do
    if ← atSign "@" then
      let mark ← rules .decorator
      return (([] : List Text), [mark])
    else return ([← name], [])
  return ((items.map Prod.fst).flatten, (items.map Prod.snd).flatten)

def functionBody? (value : List Node) : Option Nat :=
  match value with
  | [n] => match n.kind with
    | .function body => some body
    | _ => none
  | _ => none

def atIndexSignature : Parser Bool := ahead do
  expectSign "["
  let _ ← name
  atSign ":"

def indexSignature (rules : Rules) : Parser (List Node) := do
  expectSign "["
  let _ ← name
  expectSign ":"
  let key ← rules (.type false)
  expectSign "]"
  let type ← typeAnnotation rules
  semicolon
  return key :: type

def fieldOrMethod (rules : Rules) (start : Nat) (modifiers : List Text) (marks : List Node) :
    Parser Node := do
  let isGenerator ← acceptSign "*"
  let isConstructor ← (do
    match ← kindHere with
    | .word t _ => return t == ("constructor" : Text) && (← then? (atAnySign ["(", "<"]))
    | .string t => return t == ("constructor" : Text) && (← then? (atAnySign ["(", "<"]))
    | _ => return false)
  let (title, computed) ← memberName rules
  let _ ← acceptSign "?"
  let _ ← acceptSign "!"
  if ← atAnySign ["(", "<"] then
    let (tail, body) ← functionTail rules (modifiers.elem ("async" : Text)) isGenerator
    let kind := if isConstructor then .other else .method title modifiers body
    node kind start (marks ++ computed ++ tail)
  else
    let (type, value) ← inFunction false false do
      let type ← typeAnnotation rules
      return (type, ← initializer rules false)
    semicolon
    node (.field title modifiers (functionBody? value)) start (marks ++ computed ++ type ++ value)

def classMember (rules : Rules) : Parser Node := do
  let start ← here
  if ← acceptSign ";" then node .other start []
  else
    let (modifiers, marks) ← modifiersOfMember rules
    if (← atWord "static") && (← then? (atSign "\x7b")) then
      advance
      let body ← inFunction true false (rules .block)
      node .other start (marks ++ [body])
    else if ← atModifier [] ["get", "set"] then
      advance
      let (_, computed) ← memberName rules
      let (tail, _) ← functionTail rules false false
      node .other start (marks ++ computed ++ tail)
    else if ← atIndexSignature then
      let parts ← indexSignature rules
      node .other start (marks ++ parts)
    else fieldOrMethod rules start modifiers marks

def heritage (rules : Rules) : Parser (List Node) := do
  let clauses ← repeatWhile (atAnyWord ["extends", "implements"]) do
    advance
    let first ← base
    let more ← repeatWhile (atSign ",") do advance; base
    return (first :: more).flatten
  return clauses.flatten
where
  base : Parser (List Node) := do
    let e ← rules .leftHand
    let arguments ← if ← atSign "<" then pure [← rules .typeArguments] else pure []
    return e :: arguments

def classTail (rules : Rules) : Parser (List Node × Nat) := do
  let typeParameters ← optionalTypeParameters rules
  let bases ← heritage rules
  let body ← here
  expectSign "\x7b"
  let members ← repeatWhile (do return !(← atSign "\x7d") && !(← atDone)) (classMember rules)
  expectSign "\x7d"
  return (typeParameters ++ bases ++ members, body)

/-- Whether the name of a class comes next; `implements` begins its heritage. -/
def atClassName : Parser Bool := do
  return (← atIdentifier) && !((← atWord "implements") && (← then? atName))

def classExpression (rules : Rules) : Parser Node := do
  let start ← here
  let marks ← decorators rules
  expectWord "class"
  if ← atClassName then let _ ← name
  let (parts, _) ← classTail rules
  node .other start (marks ++ parts)

end AnnotationIndex.Script
