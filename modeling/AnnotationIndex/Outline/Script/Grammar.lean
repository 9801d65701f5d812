import AnnotationIndex.Outline.Script.Token
import AnnotationIndex.Outline.Script.Tree

/-!
Parsers over places. The rules of the grammar refer to each other through goals: each rule is an
ordinary function of what the goals mean, and the whole grammar is tied together once, with a bound on
how deep goals may nest.
-/
namespace AnnotationIndex.Script
open Text

/-- What the surroundings decide: whether elements may be written, and type arguments in expressions,
and whether `await` and `yield` are operators wherever they stand. -/
structure Scope where
  elements : Bool
  typeArguments : Bool
  awaits : Bool
  yields : Bool

abbrev Parser (α : Type) := ReaderT Scope (StateT Place Option) α

/-- What a rule may ask for from the others. An assignment in the middle of a conditional takes an
arrow function with a return type only if a colon follows it. -/
inductive Goal where
  | statement
  | block
  | expression (noIn : Bool)
  | assignment (noIn : Bool) (beforeColon : Bool)
  | unary
  | primary
  | leftHand
  | type (noConditional : Bool)
  | objectType
  | typeArguments
  | typeParameters
  | parameters
  | binding
  | classExpression
  | objectLiteral
  | template
  | element (inElement : Bool)
  | decorator

abbrev Rules := Goal → Parser Node

section Basics

def here : Parser Nat := do return (← get).token.start

def lastStop : Parser Nat := do return (← get).lastStop

def advance : Parser Unit := modify Place.advance

def kindHere : Parser TokenKind := do return (← get).token.kind

def afterLineBreak : Parser Bool := do return (← get).token.afterLineBreak

def atDone : Parser Bool := do return (← kindHere) == .done

def atSign (s : String) : Parser Bool := do
  match ← kindHere with
  | .punctuator t => return t == ofString s
  | _ => return false

def atAnySign (signs : List String) : Parser Bool := do
  match ← kindHere with
  | .punctuator t => return signs.any fun s => t == ofString s
  | _ => return false

def atWord (w : String) : Parser Bool := do
  match ← kindHere with
  | .word t escaped => return t == ofString w && !escaped
  | _ => return false

def atAnyWord (ws : List String) : Parser Bool := do
  match ← kindHere with
  | .word t escaped => return !escaped && ws.any fun w => t == ofString w
  | _ => return false

def acceptSign (s : String) : Parser Bool := do
  if ← atSign s then advance; return true
  else return false

def acceptWord (w : String) : Parser Bool := do
  if ← atWord w then advance; return true
  else return false

def expectSign (s : String) : Parser Unit := do
  unless ← acceptSign s do failure

def expectWord (w : String) : Parser Unit := do
  unless ← acceptWord w do failure

def attempt {α : Type} (p : Parser α) : Parser (Option α) := fun scope s =>
  match p scope s with
  | some (a, s) => some (some a, s)
  | none => some (none, s)

def ahead (p : Parser Bool) : Parser Bool := fun scope s =>
  match p scope s with
  | some (a, _) => some (a, s)
  | none => some (false, s)

def then? (p : Parser Bool) : Parser Bool := ahead do advance; p

def loop {α : Type} (more : Parser Bool) (p : Parser α) : Nat → Parser (List α)
  | 0 => return []
  | n + 1 => do
    if ← more then
      let a ← p
      return a :: (← loop more p n)
    else return []

def repeatWhile {α : Type} (more : Parser Bool) (p : Parser α) : Parser (List α) := do
  let s ← get
  loop more p (s.size + 1 - s.token.start)

def growLoop {α : Type} (step : α → Parser (Option α)) : Nat → α → Parser α
  | 0, a => return a
  | n + 1, a => do
    match ← step a with
    | some b => growLoop step n b
    | none => return a

def grow {α : Type} (step : α → Parser (Option α)) (a : α) : Parser α := do
  let s ← get
  growLoop step (s.size + 1 - s.token.start) a

def inFunction {α : Type} (isAsync isGenerator : Bool) (p : Parser α) : Parser α :=
  withReader (fun scope => { scope with awaits := isAsync, yields := isGenerator }) p

def node (kind : Kind) (start : Nat) (parts : List Node) : Parser Node := do
  return .mk kind start (← lastStop) parts

def commaList {α : Type} (close : String) (item : Parser α) : Parser (List α) := do
  let items ← repeatWhile (do return !(← atSign close) && !(← atDone)) do
    let a ← item
    unless ← acceptSign "," do
      unless ← atSign close do failure
    return a
  expectSign close
  return items

def atTemplatePart : Parser Bool := do
  let p ← get
  match p.token.kind with
  | .template _ _ => return p.here.head? == some (unit '\x7d')
  | _ => return false

def substitutions (item : Parser Node) : Parser (List Node) := do
  let items ← repeatWhile (do return !(← atTemplatePart) && !(← atDone)) do
    let e ← item
    unless ← atSign "\x7d" do failure
    modify Place.asTemplatePart
    match ← kindHere with
    | .template _ false => advance
    | _ => return e
    return e
  advance
  return items

end Basics

def reservedWords : List String :=
  ["break", "case", "catch", "class", "const", "continue", "debugger", "default", "delete", "do",
    "else", "enum", "export", "extends", "false", "finally", "for", "function", "if", "import", "in",
    "instanceof", "new", "null", "return", "super", "switch", "this", "throw", "true", "try",
    "typeof", "var", "void", "while", "with"]

def isReserved (t : Text) : Bool := reservedWords.any fun w => t == ofString w

def onSameLine (p : Parser Bool) : Parser Bool := do
  return !(← afterLineBreak) && (← p)

def atIdentifier : Parser Bool := do
  match ← kindHere with
  | .word t escaped => return escaped || !isReserved t
  | _ => return false

def atName : Parser Bool := do
  match ← kindHere with
  | .word _ _ => return true
  | _ => return false

def name : Parser Text := do
  match ← kindHere with
  | .word t _ => advance; return t
  | _ => failure

def identifier : Parser Text := do
  if ← atIdentifier then name else failure

def identifierNode : Parser Node := do
  let start ← here
  let t ← identifier
  node (.identifier t) start []

/-- What ends a statement: a semicolon, which belongs to it, or the end of its line or block. -/
def semicolon : Parser Unit := do
  let _ ← acceptSign ";"

def atStatementEnd : Parser Bool := do
  return (← atAnySign [";", "\x7d"]) || (← atDone) || (← afterLineBreak)

def textSince (p : Place) : Parser Text := do
  return p.here.take ((← lastStop) - p.token.start)

def atMemberName : Parser Bool := do
  match ← kindHere with
  | .word _ _ => return true
  | .privateName _ => return true
  | .string _ => return true
  | .number => return true
  | .punctuator t => return t == ("[" : Text)
  | _ => return false

def memberName (rules : Rules) : Parser (Text × List Node) := do
  let p ← get
  match p.token.kind with
  | .word t _ => advance; return (t, [])
  | .punctuator _ =>
    expectSign "["
    let e ← rules (.assignment false false)
    expectSign "]"
    return (← textSince p, [e])
  | .privateName t => advance; return (t, [])
  | .string _ => advance; return (← textSince p, [])
  | .number => advance; return (← textSince p, [])
  | _ => failure

def typeAnnotation (rules : Rules) : Parser (List Node) := do
  if ← acceptSign ":" then return [← rules (.type false)] else return []

def optionalTypeParameters (rules : Rules) : Parser (List Node) := do
  if ← atSign "<" then return [← rules .typeParameters] else return []

def signature (rules : Rules) : Parser (List Node) := do
  let typeParameters ← optionalTypeParameters rules
  let parameters ← rules .parameters
  let result ← typeAnnotation rules
  return typeParameters ++ parameters :: result

def functionTail (rules : Rules) (isAsync isGenerator : Bool) : Parser (List Node × Option Nat) :=
  inFunction isAsync isGenerator do
    let head ← signature rules
    if ← atSign "\x7b" then
      let start ← here
      let body ← rules .block
      return (head ++ [body], some start)
    else
      semicolon
      return (head, none)

end AnnotationIndex.Script
