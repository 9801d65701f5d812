import AnnotationIndex.Outline.Script.ClassGrammar

/-!
Expressions. Operands of binary operators stand side by side: an outline needs no precedence.
-/
namespace AnnotationIndex.Script
open Text

def assignmentSigns : List String :=
  ["=", "+=", "-=", "*=", "/=", "%=", "**=", "<<=", ">>=", ">>>=", "&=", "|=", "^=", "&&=", "||=", "??="]

def binarySigns : List String :=
  ["??", "||", "&&", "|", "^", "&", "==", "!=", "===", "!==", "<", ">", "<=", ">=", ">>", "<<", ">>>",
    "+", "-", "*", "/", "%", "**"]

def prefixSigns : List String := ["+", "-", "~", "!", "++", "--"]

/-- Whether an expression could start here; an operator counts too. -/
def startsExpression : Parser Bool := do
  match ← kindHere with
  | .word t escaped =>
    return escaped || !isReserved t ||
      ["this", "super", "null", "true", "false", "function", "class", "new", "delete", "typeof", "void",
        "import", "in", "instanceof"].any fun w => t == ofString w
  | .punctuator _ => atAnySign (["(", "[", "\x7b", "/=", "@"] ++ prefixSigns ++ binarySigns)
  | .done => return false
  | .unknown => return false
  | _ => return true

/-- Whether a word or a literal follows on the same line, so that the word before it is an operator. -/
def followedByOperand : Parser Bool := then? (onSameLine do
  match ← kindHere with
  | .word _ _ => return true
  | .number => return true
  | .string _ => return true
  | _ => return false)

def startsAwait : Parser Bool := do
  return (← atWord "await") && ((← read).awaits || (← followedByOperand))

def startsYield : Parser Bool := do
  return (← atWord "yield") && ((← read).yields || (← followedByOperand))

section Functions

def functionExpression (rules : Rules) : Parser Node := do
  let start ← here
  let isAsync ← acceptWord "async"
  expectWord "function"
  let isGenerator ← acceptSign "*"
  if ← atIdentifier then let _ ← name
  let (tail, body) ← functionTail rules isAsync isGenerator
  match body with
  | some b => node (.function b) start tail
  | none => failure

def arrowTail (rules : Rules) (start : Nat) (isAsync : Bool) (head : List Node)
    (noIn beforeColon : Bool) : Parser Node := do
  expectSign "=>"
  let body ← here
  let result ← inFunction isAsync false
    (do if ← atSign "\x7b" then rules .block else rules (.assignment noIn beforeColon))
  node (.function body) start (head ++ [result])

def parenthesizedArrow (rules : Rules) (noIn beforeColon : Bool) : Parser Node := do
  let start ← here
  let isAsync ← acceptWord "async"
  let head ← inFunction isAsync false do
    let typeParameters ← optionalTypeParameters rules
    return typeParameters ++ [← rules .parameters]
  let hasResult ← atSign ":"
  let result ← typeAnnotation rules
  let f ← arrowTail rules start isAsync (head ++ result) noIn beforeColon
  if beforeColon && hasResult && !(← atSign ":") then failure
  return f

/-- Whether an arrow function with parentheses starts here, as far as the next few tokens tell. -/
inductive Chance where
  | no
  | maybe
  | yes

def parenthesisChance : Parser Chance := do
  if ← acceptSign ")" then
    return if ← atAnySign ["=>", ":", "\x7b"] then .yes else .no
  else if ← atAnySign ["[", "\x7b"] then return .maybe
  else if ← atSign "..." then return .yes
  else if (← atAnyWord parameterModifiers) && (← then? atIdentifier) then
    return if ← then? (atWord "as") then .no else .yes
  else if !((← atIdentifier) || (← atWord "this")) then return .no
  else
    advance
    if ← atSign ":" then return .yes
    else if ← acceptSign "?" then
      return if ← atAnySign [":", ",", "=", ")"] then .yes else .no
    else return if ← atAnySign [",", "=", ")"] then .maybe else .no

/- Where elements may be written, type parameters are told from a tag by what follows the name. -/
def angleChance : Parser Chance := do
  if !((← atIdentifier) || (← atWord "const")) then return .no
  else if !(← read).elements then return .maybe
  else
    let _ ← acceptWord "const"
    advance
    if ← acceptWord "extends" then
      return if ← atAnySign ["=", ">", "/"] then .no else .yes
    else return if ← atAnySign [",", "="] then .yes else .no

def chanceHere : Parser Chance := do
  let isAsync ← acceptWord "async"
  if isAsync && (← afterLineBreak) then return .no
  else if ← acceptSign "(" then parenthesisChance
  else if ← acceptSign "<" then angleChance
  else return .no

def arrowChance : Parser Chance := fun scope s =>
  match chanceHere scope s with
  | some (c, _) => some (c, s)
  | none => some (.no, s)

def asyncArrow (rules : Rules) (noIn beforeColon : Bool) : Parser Node := do
  let start ← here
  expectWord "async"
  if ← afterLineBreak then failure
  let parameter ← identifierNode
  if ← afterLineBreak then failure
  arrowTail rules start true [parameter] noIn beforeColon

def arrow? (rules : Rules) (noIn beforeColon : Bool) : Parser (Option Node) := do
  match ← arrowChance with
  | .yes => attempt (parenthesizedArrow rules noIn false)
  | .maybe => attempt (parenthesizedArrow rules noIn beforeColon)
  | .no => if ← atWord "async" then attempt (asyncArrow rules noIn beforeColon) else return none

end Functions

section Chains

def arguments (rules : Rules) : Parser (List Node) := do
  expectSign "("
  commaList ")" do
    let start ← here
    if ← acceptSign "..." then
      let e ← rules (.assignment false false)
      node .spread start [e]
    else rules (.assignment false false)

/-- Type arguments in an expression; what follows tells them from comparisons. -/
def expressionTypeArguments (rules : Rules) : Parser Unit := do
  unless (← read).typeArguments do failure
  modify Place.asOperator
  expectSign "<"
  let _ ← repeatWhile (do return !(← atSign ">") && !(← atDone)) do
    let _ ← rules (.type false)
    unless ← acceptSign "," do
      unless ← atSign ">" do failure
  modify Place.asOperator
  expectSign ">"
  unless ← canFollow do failure
where
  canFollow : Parser Bool := do
    match ← kindHere with
    | .template _ _ => return true
    | _ =>
      if ← atSign "(" then return true
      else if ← atAnySign ["<", ">", "+", "-"] then return false
      else if ← afterLineBreak then return true
      else if ← atAnySign binarySigns then return true
      else if ← atAnyWord ["in", "instanceof", "as", "satisfies"] then return true
      else return !(← startsExpression)

def atTemplate : Parser Bool := do
  match ← kindHere with
  | .template _ _ => return true
  | _ => return false

def memberAfterPoint : Parser Text := do
  match ← kindHere with
  | .privateName t => advance; return t
  | _ => name

def elementAccess (rules : Rules) (e : Node) : Parser Node := do
  expectSign "["
  let index ← rules (.expression false)
  expectSign "]"
  node .other e.start [e, index]

def callOf (rules : Rules) (e : Node) : Parser Node := do
  let items ← arguments rules
  node .call e.start (e :: items)

structure Links where
  calls : Bool
  brackets : Bool

def extendChain (rules : Rules) (links : Links) (e : Node) : Parser (Option Node) := do
  if links.calls && (← atSign "?.") then
    advance
    if ← atSign "(" then return some (← callOf rules e)
    else if ← atSign "[" then return some (← elementAccess rules e)
    else if ← atSign "<" then
      expressionTypeArguments rules
      return some (← callOf rules e)
    else
      let member ← memberAfterPoint
      return some (← node (.member member) e.start [e])
  else if ← acceptSign "." then
    let member ← memberAfterPoint
    return some (← node (.member member) e.start [e])
  else if links.brackets && (← atSign "[") then return some (← elementAccess rules e)
  else if ← atTemplate then
    let text ← rules .template
    return some (← node .other e.start [e, text])
  else if (← atSign "!") && !(← afterLineBreak) then
    advance
    return some (← node .other e.start [e])
  else if ← atSign "<" then
    match ← attempt (expressionTypeArguments rules) with
    | some _ =>
      if (← atSign "(") || (← atTemplate) || !links.calls then return some e
      else return some (← node .other e.start [e])
    | none => return none
  else if links.calls && (← atSign "(") then return some (← callOf rules e)
  else return none

def chain (rules : Rules) (links : Links) (e : Node) : Parser Node := grow (extendChain rules links) e

end Chains

section Literals

def template (rules : Rules) : Parser Node := do
  let start ← here
  match ← kindHere with
  | .template value true =>
    advance
    node (.string value) start []
  | .template _ false =>
    advance
    let parts ← substitutions (rules (.expression false))
    node .other start parts
  | _ => failure

def arrayLiteral (rules : Rules) : Parser Node := do
  let start ← here
  expectSign "["
  let items ← commaList "]" do
    let start ← here
    if ← atSign "," then node .other start []
    else if ← acceptSign "..." then
      let e ← rules (.assignment false false)
      node .spread start [e]
    else rules (.assignment false false)
  node .other start items

def objectMember (rules : Rules) : Parser Node := do
  let start ← here
  if ← acceptSign "..." then
    let e ← rules (.assignment false false)
    node .spread start [e]
  else
    let isAsync ← atModifier ["async"] []
    if isAsync then advance
    if ← atModifier [] ["get", "set"] then
      advance
      let (_, computed) ← memberName rules
      let (tail, _) ← functionTail rules false false
      node .other start (computed ++ tail)
    else
      let isGenerator ← acceptSign "*"
      let p ← get
      let (title, computed) ← memberName rules
      let _ ← acceptSign "?"
      let _ ← acceptSign "!"
      if ← atAnySign ["(", "<"] then
        let (tail, _) ← functionTail rules isAsync isGenerator
        node .other start (computed ++ tail)
      else if ← acceptSign ":" then
        let e ← rules (.assignment false false)
        node .other start (computed ++ [e])
      else
        match p.token.kind with
        | .word _ _ =>
          let value ← initializer rules false
          node (.shorthand title) start value
        | _ => failure

def objectLiteral (rules : Rules) : Parser Node := do
  let start ← here
  expectSign "\x7b"
  let members ← commaList "\x7d" (objectMember rules)
  node .object start members

end Literals

section Operands

def simpleNode (kind : Kind) : Parser Node := do
  let start ← here
  advance
  node kind start []

def creation (rules : Rules) : Parser Node := do
  let start ← here
  expectWord "new"
  if ← acceptSign "." then
    let _ ← name
    node .other start []
  else
    let head ← rules .primary
    let callee ← chain rules ⟨false, true⟩ head
    let items ← if ← atSign "(" then arguments rules else pure []
    node .create start (callee :: items)

def importWord : Parser Node := do
  let start ← here
  advance
  if ← acceptSign "." then
    let _ ← name
    node .other start []
  else node .importKeyword start []

def primaryWord (rules : Rules) : Parser Node := do
  if ← atAnyWord ["super", "null", "true", "false"] then simpleNode .other
  else if ← atWord "this" then simpleNode .this
  else if ← atWord "import" then importWord
  else if ← atWord "function" then functionExpression rules
  else if (← atWord "async") && (← then? (onSameLine (atWord "function"))) then functionExpression rules
  else if ← atWord "class" then rules .classExpression
  else if ← atWord "new" then creation rules
  else identifierNode

def primary (rules : Rules) : Parser Node := do
  match ← kindHere with
  | .word _ _ => primaryWord rules
  | .privateName _ => simpleNode .other
  | .number => simpleNode .other
  | .string value => simpleNode (.string value)
  | .template _ _ => rules .template
  | .punctuator _ =>
    let start ← here
    if ← acceptSign "(" then
      let e ← rules (.expression false)
      expectSign ")"
      node .other start [e]
    else if ← atSign "[" then arrayLiteral rules
    else if ← atSign "\x7b" then rules .objectLiteral
    else if ← atAnySign ["/", "/="] then
      modify Place.asRegex
      simpleNode .other
    else if ← atSign "@" then rules .classExpression
    else failure
  | _ => failure

def leftHand (rules : Rules) : Parser Node := do
  chain rules ⟨true, true⟩ (← primary rules)

def decorator (rules : Rules) : Parser Node := do
  let start ← here
  expectSign "@"
  let e ← chain rules ⟨true, false⟩ (← primary rules)
  node .other start [e]

def unary (rules : Rules) : Parser Node := do
  let start ← here
  if (← atAnySign prefixSigns) || (← atAnyWord ["delete", "typeof", "void"]) || (← startsAwait) then
    advance
    let e ← rules .unary
    node .other start [e]
  else if ← atSign "<" then
    if (← read).elements then rules (.element false)
    else
      advance
      let type ← rules (.type false)
      expectSign ">"
      let e ← rules .unary
      node .other start [type, e]
  else
    let e ← rules .leftHand
    if (← atAnySign ["++", "--"]) && !(← afterLineBreak) then
      advance
      node .other start [e]
    else return e

end Operands

def atBinaryOperator (noIn : Bool) : Parser Bool := do
  modify Place.asOperator
  if ← atAnySign binarySigns then return true
  else if ← atAnyWord ["as", "satisfies"] then return !(← afterLineBreak)
  else return (← atWord "instanceof") || (!noIn && (← atWord "in"))

def binary (rules : Rules) (noIn : Bool) : Parser Node := do
  let start ← here
  let first ← rules .unary
  let more ← repeatWhile (atBinaryOperator noIn) do
    if ← atAnyWord ["as", "satisfies"] then
      advance
      rules (.type false)
    else
      advance
      rules .unary
  if more.isEmpty then return first else node .other start (first :: more)

def yieldExpression (rules : Rules) (noIn beforeColon : Bool) : Parser Node := do
  let start ← here
  expectWord "yield"
  if !(← afterLineBreak) && ((← atSign "*") || (← startsExpression)) then
    let _ ← acceptSign "*"
    let e ← rules (.assignment noIn beforeColon)
    node .other start [e]
  else node .other start []

def afterOperands (rules : Rules) (e : Node) (noIn beforeColon : Bool) : Parser Node := do
  modify Place.asOperator
  if ← atSign "=" then
    advance
    let value ← rules (.assignment noIn beforeColon)
    node .assignment e.start [e, value]
  else if ← atAnySign assignmentSigns then
    advance
    let value ← rules (.assignment noIn beforeColon)
    node .other e.start [e, value]
  else if ← acceptSign "?" then
    let yes ← rules (.assignment false true)
    expectSign ":"
    let no ← rules (.assignment noIn beforeColon)
    node .other e.start [e, yes, no]
  else return e

def assignment (rules : Rules) (noIn beforeColon : Bool) : Parser Node := do
  if ← startsYield then yieldExpression rules noIn beforeColon
  else
    match ← arrow? rules noIn beforeColon with
    | some f => return f
    | none =>
      let e ← binary rules noIn
      let isName := match e.kind with | .identifier _ => true | _ => false
      if isName && (← atSign "=>") then arrowTail rules e.start false [e] noIn beforeColon
      else afterOperands rules e noIn beforeColon

def expression (rules : Rules) (noIn : Bool) : Parser Node := do
  let start ← here
  let first ← rules (.assignment noIn false)
  let more ← repeatWhile (atSign ",") do
    advance
    rules (.assignment noIn false)
  if more.isEmpty then return first else node .other start (first :: more)

end AnnotationIndex.Script
