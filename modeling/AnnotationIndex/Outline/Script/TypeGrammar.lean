import AnnotationIndex.Outline.Script.Grammar

/-!
Types. An outline looks at nothing inside a type but computed names, so most types are plain nodes.
-/
namespace AnnotationIndex.Script
open Text

def angleList (item : Parser Node) : Parser Node := do
  let start ← here
  expectSign "<"
  let items ← commaList ">" item
  node .other start items

def typeParameter (rules : Rules) : Parser Node := do
  let start ← here
  let _ ← repeatWhile (do return (← atAnyWord ["const", "in", "out"]) && (← then? atName)) advance
  let _ ← name
  let bound ← if ← acceptWord "extends" then pure [← rules (.type false)] else pure []
  let default ← if ← acceptSign "=" then pure [← rules (.type false)] else pure []
  node .other start (bound ++ default)

def functionType (rules : Rules) (start : Nat) (noConditional : Bool) : Parser Node := do
  let typeParameters ← optionalTypeParameters rules
  let parameters ← rules .parameters
  expectSign "=>"
  let result ← rules (.type noConditional)
  node .other start (typeParameters ++ [parameters, result])

def entityName : Parser Unit := do
  let _ ← name
  let _ ← repeatWhile (atSign ".") do
    advance
    match ← kindHere with
    | .privateName _ => advance
    | _ => let _ ← name

def argumentsOfType (rules : Rules) : Parser (List Node) := do
  if (← atSign "<") && !(← afterLineBreak) then return [← rules .typeArguments] else return []

def importType (rules : Rules) : Parser (List Node) := do
  expectWord "import"
  expectSign "("
  let module ← rules (.type false)
  let _ ← acceptSign ","
  let attributes ← if ← atSign "\x7b" then pure [← rules .objectLiteral] else pure []
  let _ ← acceptSign ","
  expectSign ")"
  if ← acceptSign "." then entityName
  return module :: attributes ++ (← argumentsOfType rules)

def tupleElement (rules : Rules) : Parser Node := do
  let start ← here
  let _ ← acceptSign "..."
  let isNamed ← ahead do
    let _ ← name
    let _ ← acceptSign "?"
    atSign ":"
  if isNamed then
    let _ ← name
    let _ ← acceptSign "?"
    expectSign ":"
  let type ← rules (.type false)
  let _ ← acceptSign "?"
  node .other start [type]

def templateType (rules : Rules) : Parser (List Node) := do
  match ← kindHere with
  | .template _ true => advance; return []
  | .template _ false => advance; substitutions (rules (.type false))
  | _ => failure

def primaryType (rules : Rules) : Parser Node := do
  let start ← here
  match ← kindHere with
  | .word _ _ =>
    if ← atWord "typeof" then
      advance
      if ← atWord "import" then
        let parts ← importType rules
        node .other start parts
      else
        entityName
        let arguments ← argumentsOfType rules
        node .other start arguments
    else if ← atWord "import" then
      let parts ← importType rules
      node .other start parts
    else if (← atWord "asserts") && (← then? (do return (← atName) && !(← afterLineBreak))) then
      advance
      let _ ← name
      let type ← if ← acceptWord "is" then pure [← rules (.type false)] else pure []
      node .other start type
    else
      entityName
      if (← atWord "is") && !(← afterLineBreak) then
        advance
        let type ← rules (.type false)
        node .other start [type]
      else
        let arguments ← argumentsOfType rules
        node .other start arguments
  | .string _ => advance; node .other start []
  | .number => advance; node .other start []
  | .template _ _ =>
    let parts ← templateType rules
    node .other start parts
  | .punctuator _ =>
    if ← acceptSign "-" then advance; node .other start []
    else if ← acceptSign "(" then
      let type ← rules (.type false)
      expectSign ")"
      node .other start [type]
    else if ← acceptSign "[" then
      let elements ← commaList "]" (tupleElement rules)
      node .other start elements
    else if ← atSign "\x7b" then rules .objectType
    else failure
  | _ => failure

def postfixType (rules : Rules) : Parser Node := do
  let start ← here
  let type ← primaryType rules
  let suffixes ← repeatWhile (do return (← atSign "[") && !(← afterLineBreak)) do
    advance
    let index ← if ← atSign "]" then pure [] else pure [← rules (.type false)]
    expectSign "]"
    return index
  node .other start (type :: suffixes.flatten)

/-- The bound of an inferred name, unless it turns out to be the test of a conditional type. -/
def inferredBound (rules : Rules) (noConditional : Bool) : Parser Unit := do
  let _ ← attempt do
    expectWord "extends"
    let _ ← rules (.type true)
    if !noConditional && (← atSign "?") then failure

def startsFunctionType : Parser Bool := do
  if ← atSign "<" then return true
  else if ← atWord "new" then return true
  else return (← atWord "abstract") && (← then? (atWord "new"))

def operandType (rules : Rules) (noConditional : Bool) : Parser Node := do
  let start ← here
  if ← startsFunctionType then
    let _ ← acceptWord "abstract"
    let _ ← acceptWord "new"
    functionType rules start noConditional
  else
    let _ ← repeatWhile (do
        return (← atAnyWord ["keyof", "unique", "readonly"]) &&
          (← then? (do return (← atName) || (← atAnySign ["(", "[", "\x7b"]))))
      advance
    if (← atWord "infer") && (← then? atName) then
      advance
      let _ ← name
      inferredBound rules noConditional
      node .other start []
    else
      match ← (if ← atSign "(" then attempt (functionType rules start noConditional) else pure none) with
      | some type => return type
      | none => postfixType rules

def unionType (rules : Rules) (noConditional : Bool) : Parser Node := do
  let start ← here
  let _ ← repeatWhile (atAnySign ["|", "&"]) advance
  let first ← operandType rules noConditional
  let more ← repeatWhile (atAnySign ["|", "&"]) do
    let _ ← repeatWhile (atAnySign ["|", "&"]) advance
    operandType rules noConditional
  node .other start (first :: more)

def type (rules : Rules) (noConditional : Bool) : Parser Node := do
  let start ← here
  let test ← unionType rules noConditional
  if !noConditional && (← atWord "extends") && !(← afterLineBreak) then
    advance
    let bound ← rules (.type true)
    expectSign "?"
    let yes ← rules (.type false)
    expectSign ":"
    let no ← rules (.type false)
    node .other start [test, bound, yes, no]
  else return test

def typeMemberName (rules : Rules) : Parser (List Node) := do
  if ← atSign "[" then
    let isMapping ← then? do let _ ← name; atWord "in"
    let isIndex ← then? do let _ ← name; atSign ":"
    if isMapping then
      advance
      let _ ← name
      expectWord "in"
      let keys ← rules (.type false)
      let renamed ← if ← acceptWord "as" then pure [← rules (.type false)] else pure []
      expectSign "]"
      return keys :: renamed
    else if isIndex then
      advance
      let _ ← name
      expectSign ":"
      let key ← rules (.type false)
      expectSign "]"
      return [key]
    else return (← memberName rules).2
  else return (← memberName rules).2

def typeMember (rules : Rules) : Parser Node := do
  let start ← here
  let _ ← acceptSign "+"
  let _ ← acceptSign "-"
  let _ ← repeatWhile (do
      return (← atAnyWord ["readonly", "get", "set", "static", "public", "private", "protected"]) &&
        (← then? atMemberName))
    advance
  let isConstruct ← (do return (← atWord "new") && (← then? (atAnySign ["(", "<"])))
  if isConstruct then advance
  let named ← if isConstruct || (← atAnySign ["(", "<"]) then pure [] else typeMemberName rules
  let _ ← acceptSign "+"
  let _ ← acceptSign "-"
  let _ ← acceptSign "?"
  let rest ← if ← atAnySign ["(", "<"] then signature rules else typeAnnotation rules
  unless ← acceptSign ";" do
    let _ ← acceptSign ","
  node .other start (named ++ rest)

def objectType (rules : Rules) : Parser Node := do
  let start ← here
  expectSign "\x7b"
  let members ← repeatWhile (do return !(← atSign "\x7d") && !(← atDone)) (typeMember rules)
  expectSign "\x7d"
  node .other start members

end AnnotationIndex.Script
