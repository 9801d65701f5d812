import AnnotationIndex.Outline.Script.ExpressionGrammar
import AnnotationIndex.Outline.Script.TypeGrammar

/-!
Statements and declarations.
-/
namespace AnnotationIndex.Script
open Text

section Variables

def variableWithValue (rules : Rules) (noIn : Bool) : Parser Node := do
  let start ← here
  let target ← rules .binding
  let _ ← acceptSign "!"
  let type ← typeAnnotation rules
  let value ← initializer rules noIn
  node (.variable !value.isEmpty) start (target :: type ++ value)

def variableList (rules : Rules) (noIn : Bool) : Parser (List Node) := do
  let first ← variableWithValue rules noIn
  let more ← repeatWhile (atSign ",") do
    advance
    variableWithValue rules noIn
  return first :: more

def variableKeyword : Parser (Option Text) := do
  if ← atAnyWord ["var", "const"] then return some (← wordHere)
  else if (← atWord "let") && (← then? atTarget) then return some "let"
  else if (← atWord "using") && (← then? (onSameLine atUsed)) then return some "using"
  else if (← atWord "await") && (← then? (onSameLine do
      return (← atWord "using") && (← then? (onSameLine atUsed)))) then return some "await using"
  else return none
where
  wordHere : Parser Text := do
    match ← kindHere with
    | .word t _ => return t
    | _ => return []
  atTarget : Parser Bool := do
    return (← atIdentifier) || (← atAnySign ["\x7b", "["])
  atUsed : Parser Bool := do
    return (← atIdentifier) && !(← atWord "of")

def variableStatement (rules : Rules) (start : Nat) (modifiers : List Text) (keyword : Text) : Parser Node := do
  if keyword == ("await using" : Text) then advance
  advance
  let items ← variableList rules false
  semicolon
  node (.variableList keyword (modifiers.elem ("export" : Text))) start items

end Variables

section Modules

/-- A name in an import or export list. A leading `type` is a modifier unless it is the name itself. -/
def specifier : Parser Specifier := do
  let first ← name
  if first == ("type" : Text) then
    if ← atWord "as" then
      advance
      if ← atWord "as" then
        advance
        if ← atName then return ⟨"as", some (← name)⟩ else return ⟨first, some "as"⟩
      else if ← atName then return ⟨first, some (← name)⟩
      else return ⟨"as", none⟩
    else if ← atName then renamed (← name)
    else return ⟨first, none⟩
  else renamed first
where
  renamed (t : Text) : Parser Specifier := do
    if ← acceptWord "as" then return ⟨t, some (← name)⟩ else return ⟨t, none⟩

def specifiers : Parser (List Specifier) := do
  expectSign "\x7b"
  commaList "\x7d" specifier

def moduleName (rules : Rules) : Parser (Option Text) := do
  match ← kindHere with
  | .string value => advance; return some value
  | _ =>
    let _ ← rules (.expression false)
    return none

def importAttributes (rules : Rules) : Parser Unit := do
  if (← atAnyWord ["with", "assert"]) && (← then? (atSign "\x7b")) then
    advance
    let _ ← rules .objectLiteral

def starName : Parser Text := do
  expectSign "*"
  expectWord "as"
  name

def atImportModifier : Parser Bool := do
  if ← atWord "type" then
    then? do
      if ← atAnySign ["*", "\x7b"] then return true
      else if ← atWord "from" then then? (do return (← atWord "from") || (← atSign "="))
      else atIdentifier
  else return false

/-- `import x = …`, which gives no import statement of the outline. -/
def importEquals (rules : Rules) (start : Nat) (exported : Bool) (name : Text) : Parser Node := do
  expectSign "="
  if (← atWord "require") && (← then? (atSign "(")) then
    advance
    expectSign "("
    let module ← rules (.expression false)
    expectSign ")"
    semicolon
    node (.importAlias name exported true) start [module]
  else
    entityName
    semicolon
    node (.importAlias name exported false) start []

def importFrom (rules : Rules) (start : Nat) (first : Option Text) : Parser Node := do
  let star ← if ← atSign "*" then pure (some (← starName)) else pure none
  let names ← if star.isNone && (← atSign "\x7b") then specifiers else pure []
  expectWord "from"
  let module ← moduleName rules
  importAttributes rules
  semicolon
  node (.importDeclaration module first star names) start []

def importDeclaration (rules : Rules) (start : Nat) (exported : Bool) : Parser Node := do
  expectWord "import"
  match ← kindHere with
  | .string value =>
    advance
    importAttributes rules
    semicolon
    node (.importDeclaration (some value) none none []) start []
  | _ =>
    if ← atImportModifier then advance
    if ← atName then
      let first ← name
      if ← atSign "=" then importEquals rules start exported first
      else if ← acceptSign "," then importFrom rules start (some first)
      else
        expectWord "from"
        let module ← moduleName rules
        importAttributes rules
        semicolon
        node (.importDeclaration module (some first) none []) start []
    else importFrom rules start none

def exportDeclaration (rules : Rules) (start : Nat) : Parser Node := do
  if ← acceptSign "=" then
    let e ← rules (.assignment false false)
    semicolon
    node (.exportAssignment false) start [e]
  else if ← acceptWord "default" then
    let e ← rules (.assignment false false)
    semicolon
    node (.exportAssignment true) start [e]
  else if (← atWord "as") && (← then? (atWord "namespace")) then
    advance
    advance
    let _ ← name
    semicolon
    node .other start []
  else
    let _ ← acceptWord "type"
    if ← acceptSign "*" then
      let star ← if ← acceptWord "as" then pure (some (← name)) else pure none
      expectWord "from"
      let module ← moduleName rules
      importAttributes rules
      semicolon
      node (.exportDeclaration module star []) start []
    else
      let names ← specifiers
      let module ← if ← acceptWord "from" then
          match ← moduleName rules with
          | some m => pure (some m)
          | none => failure
        else pure none
      importAttributes rules
      semicolon
      node (.exportDeclaration module none names) start []

end Modules

section Declarations

structure DeclarationHead where
  start : Nat
  modifiers : List Text
  marks : List Node

namespace DeclarationHead

def has (h : DeclarationHead) (w : String) : Bool := h.modifiers.elem (ofString w)

def finish (h : DeclarationHead) (kind : DeclarationKind) (title : Option Text) (body : Option Nat)
    (parts : List Node) : Parser Node :=
  node (.declaration kind title h.modifiers body) h.start (h.marks ++ parts)

end DeclarationHead

def functionDeclaration (rules : Rules) (h : DeclarationHead) : Parser Node := do
  expectWord "function"
  let isGenerator ← acceptSign "*"
  let title ← if ← atName then pure (some (← name)) else pure none
  let (tail, body) ← functionTail rules (h.has "async") isGenerator
  h.finish .function title body tail

def classDeclaration (rules : Rules) (h : DeclarationHead) : Parser Node := do
  expectWord "class"
  let title ← if ← atClassName then pure (some (← name)) else pure none
  let (tail, body) ← classTail rules
  h.finish .class title (some body) tail

def interfaceDeclaration (rules : Rules) (h : DeclarationHead) : Parser Node := do
  expectWord "interface"
  let title ← name
  let typeParameters ← optionalTypeParameters rules
  let bases ← heritage rules
  let body ← rules .objectType
  h.finish .interface (some title) none (typeParameters ++ bases ++ [body])

def typeDeclaration (rules : Rules) (h : DeclarationHead) : Parser Node := do
  expectWord "type"
  let title ← name
  let typeParameters ← optionalTypeParameters rules
  expectSign "="
  let type ← rules (.type false)
  semicolon
  h.finish .type (some title) none (typeParameters ++ [type])

def enumDeclaration (rules : Rules) (h : DeclarationHead) : Parser Node := do
  expectWord "enum"
  let title ← name
  expectSign "\x7b"
  let members ← commaList "\x7d" do
    let start ← here
    let (_, computed) ← memberName rules
    let value ← initializer rules false
    node .other start (computed ++ value)
  h.finish .enum (some title) none members

def dottedName : Parser Text := do
  let first ← name
  let more ← repeatWhile (atSign ".") do
    advance
    name
  return join "." (first :: more)

/- A module whose name is a string has none of its own. -/
def moduleDeclaration (rules : Rules) (h : DeclarationHead) : Parser Node := do
  let title ←
    if ← acceptWord "global" then pure (some (ofString "global"))
    else
      advance
      match ← kindHere with
      | .string _ => advance; pure none
      | _ => pure (some (← dottedName))
  if ← atSign "\x7b" then
    let body ← rules .block
    h.finish .module title none [body]
  else
    semicolon
    h.finish .module title none []

def atNameHere : Parser Bool := onSameLine atIdentifier

def atModuleName : Parser Bool := onSameLine do
  match ← kindHere with
  | .string _ => return true
  | _ => atIdentifier

def atDeclaration : Parser Bool := do
  if ← atAnyWord ["function", "class", "enum", "import", "export"] then return true
  else if (← variableKeyword).isSome then return true
  else if ← atAnyWord ["interface", "type"] then then? atNameHere
  else if ← atAnyWord ["module", "namespace"] then then? atModuleName
  else if ← atWord "global" then then? (atSign "\x7b")
  else return false

def leadingModifiers : List String :=
  ["abstract", "declare", "async", "public", "private", "protected", "readonly", "accessor"]

def exportsDeclaration : Parser Bool := do
  if ← atWord "default" then
    then? do
      return (← atAnyWord ["class", "function", "interface"]) || (← atSign "@") ||
        ((← atWord "abstract") && (← then? (onSameLine (atWord "class")))) ||
        ((← atWord "async") && (← then? (onSameLine (atWord "function"))))
  else if ← atWord "as" then return false
  else if ← atWord "type" then then? atNameHere
  else return (← atName) || (← atSign "@")

def atLeadingModifier : Parser Bool := do
  if ← atSign "@" then return true
  else if ← atWord "export" then then? exportsDeclaration
  else if ← atWord "default" then return true
  else if (← atWord "const") && (← then? (atWord "enum")) then return true
  else if ← atAnyWord leadingModifiers then then? (onSameLine atName)
  else return false

def leading (rules : Rules) : Parser DeclarationHead := do
  let start ← here
  let items ← repeatWhile atLeadingModifier do
    if ← atSign "@" then
      let mark ← rules .decorator
      return (([] : List Text), [mark])
    else return ([← name], [])
  return ⟨start, (items.map Prod.fst).flatten, (items.map Prod.snd).flatten⟩

def startsDeclaration (rules : Rules) : Parser Bool := do
  if ← atWord "import" then
    return !(← then? (atAnySign ["(", ".", "<"]))
  else if ← atSign "@" then return true
  else if ← atDeclaration then return true
  else ahead do
    if ← atLeadingModifier then
      let _ ← leading rules
      atDeclaration
    else return false

def declaration (rules : Rules) : Parser Node := do
  let h ← leading rules
  if ← atWord "function" then functionDeclaration rules h
  else if ← atWord "class" then classDeclaration rules h
  else if ← atWord "interface" then interfaceDeclaration rules h
  else if ← atWord "enum" then enumDeclaration rules h
  else if ← atWord "import" then
    importDeclaration rules h.start (h.has "export")
  else if ← atWord "export" then
    advance
    exportDeclaration rules h.start
  else
    match ← variableKeyword with
    | some keyword => variableStatement rules h.start h.modifiers keyword
    | none =>
      if ← atWord "type" then typeDeclaration rules h
      else moduleDeclaration rules h

end Declarations

section ControlFlow

def parenthesized (rules : Rules) : Parser Node := do
  expectSign "("
  let e ← rules (.expression false)
  expectSign ")"
  return e

def block (rules : Rules) : Parser Node := do
  let start ← here
  expectSign "\x7b"
  let items ← repeatWhile (do return !(← atSign "\x7d") && !(← atDone)) (rules .statement)
  expectSign "\x7d"
  node .other start items

def ifStatement (rules : Rules) : Parser (List Node) := do
  advance
  let test ← parenthesized rules
  let yes ← rules .statement
  let no ← if ← acceptWord "else" then pure [← rules .statement] else pure []
  return test :: yes :: no

def loopStart (rules : Rules) : Parser (List Node) := do
  if ← atSign ";" then return []
  else
    match ← variableKeyword with
    | some keyword =>
      if keyword == ("await using" : Text) then advance
      advance
      variableList rules true
    | none => return [← rules (.expression true)]

def forStatement (rules : Rules) : Parser (List Node) := do
  advance
  let _ ← acceptWord "await"
  expectSign "("
  let first ← loopStart rules
  let rest ←
    if ← acceptWord "of" then pure [← rules (.assignment false false)]
    else if ← acceptWord "in" then pure [← rules (.expression false)]
    else
      expectSign ";"
      let test ← if ← atSign ";" then pure [] else pure [← rules (.expression false)]
      expectSign ";"
      let next ← if ← atSign ")" then pure [] else pure [← rules (.expression false)]
      pure (test ++ next)
  expectSign ")"
  let body ← rules .statement
  return first ++ rest ++ [body]

def switchStatement (rules : Rules) : Parser (List Node) := do
  advance
  let subject ← parenthesized rules
  expectSign "\x7b"
  let clauses ← repeatWhile (atAnyWord ["case", "default"]) do
    let test ← if ← acceptWord "case" then pure [← rules (.expression false)] else do advance; pure []
    expectSign ":"
    let items ← repeatWhile
      (do return !(← atSign "\x7d") && !(← atAnyWord ["case", "default"]) && !(← atDone))
      (rules .statement)
    return test ++ items
  expectSign "\x7d"
  return subject :: clauses.flatten

def tryStatement (rules : Rules) : Parser (List Node) := do
  advance
  let body ← rules .block
  let handler ←
    if ← acceptWord "catch" then
      let bound ←
        if ← acceptSign "(" then
          let target ← variableWithValue rules false
          expectSign ")"
          pure [target]
        else pure []
      pure (bound ++ [← rules .block])
    else pure []
  let last ← if ← acceptWord "finally" then pure [← rules .block] else pure []
  return body :: handler ++ last

def keywordStatement (rules : Rules) : Parser (List Node) := do
  advance
  let e ← if ← atStatementEnd then pure [] else pure [← rules (.expression false)]
  semicolon
  return e

def doStatement (rules : Rules) : Parser (List Node) := do
  advance
  let body ← rules .statement
  expectWord "while"
  let test ← parenthesized rules
  semicolon
  return [body, test]

def guardedStatement (rules : Rules) : Parser (List Node) := do
  advance
  let test ← parenthesized rules
  return [test, ← rules .statement]

def labelled (rules : Rules) : Parser (List Node) := do
  advance
  expectSign ":"
  return [← rules .statement]

def expressionStatement (rules : Rules) : Parser (List Node) := do
  let e ← rules (.expression false)
  semicolon
  return [e]

def plainStatement (rules : Rules) : Parser (List Node) := do
  if ← acceptSign ";" then return []
  else if ← atSign "\x7b" then return [← rules .block]
  else if ← atWord "if" then ifStatement rules
  else if ← atWord "for" then forStatement rules
  else if ← atAnyWord ["while", "with"] then guardedStatement rules
  else if ← atWord "do" then doStatement rules
  else if ← atWord "switch" then switchStatement rules
  else if ← atWord "try" then tryStatement rules
  else if ← atAnyWord ["return", "throw", "break", "continue", "debugger"] then keywordStatement rules
  else if (← atIdentifier) && (← then? (atSign ":")) then labelled rules
  else expressionStatement rules

end ControlFlow

def statement (rules : Rules) : Parser Node := do
  if ← startsDeclaration rules then declaration rules
  else
    let start ← here
    let parts ← plainStatement rules
    node .other start parts

end AnnotationIndex.Script
