import AnnotationIndex.Outline.Script.Grammar

/-!
What binds names: parameters and patterns.
-/
namespace AnnotationIndex.Script
open Text

def initializer (rules : Rules) (noIn : Bool) : Parser (List Node) := do
  if ← acceptSign "=" then return [← rules (.assignment noIn false)] else return []

def patternElement (rules : Rules) : Parser Node := do
  let start ← here
  if ← acceptSign "..." then
    let p ← get
    let target ← rules .binding
    let bound ← bindingText p target
    node (.element none bound) start [target]
  else
    let (source, computed) ← memberName rules
    if ← acceptSign ":" then
      let p ← get
      let target ← rules .binding
      let bound ← bindingText p target
      let value ← initializer rules false
      node (.element (some source) bound) start (computed ++ target :: value)
    else
      let value ← initializer rules false
      node (.element none source) start value
where
  /- A name without its escapes, or a pattern as it is written. -/
  bindingText (p : Place) (target : Node) : Parser Text := do
    match target.kind with
    | .identifier t => return t
    | _ => textSince p

def binding (rules : Rules) : Parser Node := do
  let start ← here
  if ← acceptSign "\x7b" then
    let elements ← commaList "\x7d" (patternElement rules)
    node .objectPattern start elements
  else if ← acceptSign "[" then
    let elements ← commaList "]" do
      let start ← here
      if ← atSign "," then node .other start []
      else
        let _ ← acceptSign "..."
        let target ← rules .binding
        let value ← initializer rules false
        node .other start (target :: value)
    node .other start elements
  else identifierNode

def decorators (rules : Rules) : Parser (List Node) := repeatWhile (atSign "@") (rules .decorator)

def parameterModifiers : List String := ["public", "private", "protected", "readonly", "override"]

def parameter (rules : Rules) : Parser Node := do
  let start ← here
  let marks ← decorators rules
  let _ ← repeatWhile (do
      return (← atAnyWord parameterModifiers) &&
        (← then? (do return (← atName) || (← atAnySign ["\x7b", "["]))))
    advance
  let _ ← acceptSign "..."
  let target ← if ← acceptWord "this" then node .other start [] else rules .binding
  let _ ← acceptSign "?"
  let type ← typeAnnotation rules
  let value ← initializer rules false
  node .other start (marks ++ target :: type ++ value)

def parameters (rules : Rules) : Parser Node := do
  let start ← here
  expectSign "("
  let items ← commaList ")" (parameter rules)
  node .other start items

end AnnotationIndex.Script
