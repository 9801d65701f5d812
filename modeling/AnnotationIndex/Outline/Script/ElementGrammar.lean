import AnnotationIndex.Outline.Script.Grammar

/-!
Elements written in angle brackets inside expressions.
-/
namespace AnnotationIndex.Script
open Text

def tagPart : Parser Unit := do
  modify Place.asTagName
  let _ ← name
  if ← acceptSign ":" then
    modify Place.asTagName
    let _ ← name

def tagName : Parser Unit := do
  tagPart
  let _ ← repeatWhile (atSign ".") do advance; name

def intoElementText : Parser Unit := modify fun p => Place.afterElementText p.size p.token.stop p.rest

def closeElement (start : Nat) (inElement : Bool) (parts : List Node) : Parser Node := do
  unless ← atSign ">" do failure
  let p ← get
  if inElement then intoElementText else advance
  return .mk .other start p.token.stop parts

def bracedExpression (rules : Rules) : Parser (List Node) := do
  expectSign "\x7b"
  let _ ← acceptSign "..."
  let e ← if ← atSign "\x7d" then pure [] else pure [← rules (.expression false)]
  unless ← atSign "\x7d" do failure
  return e

def tagAttribute (rules : Rules) : Parser (List Node) := do
  if ← atSign "\x7b" then
    let e ← bracedExpression rules
    advance
    return e
  else
    tagPart
    if ← atSign "=" then
      advance
      modify Place.asAttributeValue
      match ← kindHere with
      | .string _ => advance; return []
      | _ =>
        if ← atSign "\x7b" then
          let e ← bracedExpression rules
          advance
          return e
        else return [← rules (.element false)]
    else return []

def tagAttributes (rules : Rules) : Parser (List Node) := do
  let items ← repeatWhile (do return !(← atAnySign [">", "/"]) && !(← atDone)) (tagAttribute rules)
  return items.flatten

def atClosingTag : Parser Bool := do
  return (← atSign "<") && (← then? (atSign "/"))

def elementContent (rules : Rules) : Parser (List Node) := do
  let items ← repeatWhile (do return !(← atClosingTag) && !(← atDone)) do
    if ← atSign "<" then return [← rules (.element true)]
    else
      let e ← bracedExpression rules
      intoElementText
      return e
  return items.flatten

def element (rules : Rules) (inElement : Bool) : Parser Node := do
  let start ← here
  expectSign "<"
  let isFragment ← atSign ">"
  unless isFragment do tagName
  let typeArguments ← if ← atSign "<" then pure [← rules .typeArguments] else pure []
  let attributes ← tagAttributes rules
  if ← acceptSign "/" then closeElement start inElement (typeArguments ++ attributes)
  else
    unless ← atSign ">" do failure
    intoElementText
    let content ← elementContent rules
    expectSign "<"
    expectSign "/"
    unless isFragment do tagName
    closeElement start inElement (typeArguments ++ attributes ++ content)

end AnnotationIndex.Script
