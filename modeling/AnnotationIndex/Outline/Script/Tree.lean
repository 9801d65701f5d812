import AnnotationIndex.Text.Unit

/-!
Syntax trees of TypeScript and JavaScript files. A node has the range of its text, from its first token
to the end of its last, and its parts in the order of the text. Only the nodes that an outline looks at
have kinds of their own.
-/
namespace AnnotationIndex.Script

structure Specifier where
  name : Text
  newName : Option Text
  deriving DecidableEq

inductive DeclarationKind where
  | function
  | «class»
  | interface
  | type
  | enum
  | module
  deriving DecidableEq

inductive Kind where
  | other
  | identifier (name : Text)
  | this
  | string (value : Text)
  /-- The keyword of a dynamic import. -/
  | importKeyword
  /-- A member of an object, which is the only part. -/
  | member (name : Text)
  /-- A call: the callee and then the arguments. -/
  | call
  /-- An object creation: the callee and then the arguments. -/
  | create
  /-- An arrow function or function expression, with the start of its body. -/
  | function (body : Nat)
  | objectPattern
  /-- An element of a pattern: the name that it reads and the name that it binds. -/
  | element (source : Option Text) (binding : Text)
  | assignment
  | object
  | shorthand (name : Text)
  | spread
  /-- A variable: its name or pattern, and its initial value if there is one. -/
  | variable (hasValue : Bool)
  | variableList (keyword : Text) (exported : Bool)
  /-- A declaration with its name, modifiers and the start of its body. -/
  | declaration (kind : DeclarationKind) (name : Option Text) (modifiers : List Text) (body : Option Nat)
  | method (name : Text) (modifiers : List Text) (body : Option Nat)
  /-- A field of a class, with the start of its function's body if its value is a function. -/
  | field (name : Text) (modifiers : List Text) (body : Option Nat)
  /-- `import x = …` by its name, which may be exported, and whether it is of another module. -/
  | importAlias (name : Text) (exported external : Bool)
  /-- An import; no module where the specifier is no string. -/
  | importDeclaration (module : Option Text) (default : Option Text) (star : Option Text)
      (names : List Specifier)
  /-- An export of names, from another module or of this one. -/
  | exportDeclaration (module : Option Text) (star : Option Text) (names : List Specifier)
  /-- `export default` or `export =` of an expression, which is the only part. -/
  | exportAssignment (isDefault : Bool)
  deriving DecidableEq

inductive Node where
  | mk (kind : Kind) (start stop : Nat) (parts : List Node)

namespace Node

def kind : Node → Kind
  | mk k _ _ _ => k

def start : Node → Nat
  | mk _ s _ _ => s

def stop : Node → Nat
  | mk _ _ s _ => s

def parts : Node → List Node
  | mk _ _ _ ps => ps

def identifierName? (n : Node) : Option Text :=
  match n.kind with
  | .identifier t => some t
  | _ => none

mutual
def walk : Node → List Node
  | mk k s e ps => mk k s e ps :: walkAll ps
def walkAll : List Node → List Node
  | [] => []
  | n :: ns => walk n ++ walkAll ns
end

end Node
end AnnotationIndex.Script
