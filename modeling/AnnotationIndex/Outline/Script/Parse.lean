import AnnotationIndex.Outline.Script.ElementGrammar
import AnnotationIndex.Outline.Script.StatementGrammar

/-!
The whole grammar: every goal is given its rule, and a file is a list of statements.
-/
namespace AnnotationIndex.Script
open Text

def rule (rules : Rules) : Goal → Parser Node
  | .statement => statement rules
  | .block => block rules
  | .expression noIn => expression rules noIn
  | .assignment noIn beforeColon => assignment rules noIn beforeColon
  | .unary => unary rules
  | .primary => primary rules
  | .leftHand => leftHand rules
  | .type noConditional => type rules noConditional
  | .objectType => objectType rules
  | .typeArguments => angleList (rules (.type false))
  | .typeParameters => angleList (typeParameter rules)
  | .parameters => parameters rules
  | .binding => binding rules
  | .classExpression => classExpression rules
  | .objectLiteral => objectLiteral rules
  | .template => template rules
  | .element inElement => element rules inElement
  | .decorator => decorator rules

def parse : Nat → Goal → Parser Node
  | 0, _ => failure
  | depth + 1, goal => rule (parse depth) goal

/- Between two tokens fewer goals are opened than this. -/
def goalsPerToken : Nat := 12

/-- The statements of a file. What is no statement is passed over token by token. -/
def statements (t : Text) : Parser (List Node) := do
  let rules := parse ((t.length + 2) * goalsPerToken)
  let items ← repeatWhile (do return !(← atDone)) do
    match ← attempt (rules .statement) with
    | some n => return [n]
    | none => advance; return []
  return items.flatten

/-- What makes a file a module of its own, so that it may wait at its top level. -/
def isModuleStatement (n : Node) : Bool :=
  match n.kind with
  | .importDeclaration .. => true
  | .exportDeclaration .. => true
  | .exportAssignment _ => true
  | .importAlias _ exported external => exported || external
  | .declaration _ _ modifiers _ => modifiers.elem ("export" : Text)
  | .variableList _ exported => exported
  | _ => false

def parseFile (elements typeArguments : Bool) (t : Text) : List Node :=
  let run (awaits : Bool) : List Node :=
    match statements t ⟨elements, typeArguments, awaits, false⟩ (Place.first t) with
    | some (items, _) => items
    | none => []
  let items := run false
  if items.any isModuleStatement && occursWord then run true else items
where
  occursWord : Bool := Text.contains t "await"

end AnnotationIndex.Script
