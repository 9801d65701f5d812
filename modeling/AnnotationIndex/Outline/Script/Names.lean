import AnnotationIndex.Outline.Script.Tree

/-!
The names of a file's top level and the declarations that they stand for. Declarations of one name stand for
it together where their meanings go together; otherwise the name stays with the earlier ones. Exported
declarations and the others are two scopes, and a name stands for what the file keeps to itself before it
stands for what the file exports.
-/
namespace AnnotationIndex.Script
open Text

inductive Meaning where
  | function
  | «class»
  | interface
  | type
  | enum
  | constantEnum
  /-- A module that holds values. -/
  | module
  /-- A module that holds types alone. -/
  | typeModule
  /-- A name bound by `var`. -/
  | variable
  /-- A name bound by another keyword. -/
  | constant
  | imported
  deriving DecidableEq

namespace Meaning

def isValue : Meaning → Bool
  | .interface => false
  | .type => false
  | .typeModule => false
  | .imported => false
  | _ => true

def isType : Meaning → Bool
  | .class => true
  | .interface => true
  | .type => true
  | .enum => true
  | .constantEnum => true
  | _ => false

def continued : Meaning → List Meaning
  | .function => [.function, .class, .module]
  | .class => [.function, .interface, .module]
  | .interface => [.interface, .class]
  | .enum => [.enum, .module]
  | .constantEnum => [.constantEnum]
  | .module => [.function, .class, .enum, .module]
  | .variable => [.variable]
  | _ => []

def clashes (later earlier : Meaning) : Bool :=
  (later.isValue && earlier.isValue || later.isType && earlier.isType) && !later.continued.elem earlier

end Meaning

structure Entity where
  name : Text
  meaning : Meaning
  exported : Bool
  place : Nat

namespace Entity

def clashes (e earlier : Entity) : Bool :=
  e.name == earlier.name && e.exported == earlier.exported && e.meaning.clashes earlier.meaning

def addTo (kept : List Entity) (e : Entity) : List Entity :=
  if kept.any e.clashes then kept else kept ++ [e]

end Entity

section Statements

mutual
def holdsValues : Node → Bool
  | .mk (.declaration .interface _ _ _) _ _ _ => false
  | .mk (.declaration .type _ _ _) _ _ _ => false
  | .mk (.importDeclaration _ _ _ _) _ _ _ => false
  | .mk (.importAlias _ exported _) _ _ _ => exported
  | .mk (.declaration .module _ _ _) _ _ [.mk _ _ _ items] => anyHoldsValues items
  | _ => true
def anyHoldsValues : List Node → Bool
  | [] => false
  | n :: ns => holdsValues n || anyHoldsValues ns
end

def meaningOf (n : Node) (kind : DeclarationKind) (modifiers : List Text) : Meaning :=
  match kind with
  | .function => .function
  | .class => .class
  | .interface => .interface
  | .type => .type
  | .enum => if modifiers.elem ("const" : Text) then .constantEnum else .enum
  | .module => if holdsValues n then .module else .typeModule

def boundNames (target : Node) : List Text :=
  match target.kind with
  | .identifier t => [t]
  | _ => target.parts.filterMap fun e => match e.kind with
    | .element _ bound => some bound
    | _ => e.parts.head?.bind Node.identifierName?

def firstName (t : Text) : Text := t.takeWhile (· != unit '.')

/- Exported as the default a declaration stands for no name. -/
def entitiesOf (n : Node) : List Entity :=
  match n.kind with
  | .declaration kind (some title) modifiers _ =>
    if modifiers.elem ("default" : Text) then []
    else [⟨firstName title, meaningOf n kind modifiers, modifiers.elem ("export" : Text), n.start⟩]
  | .variableList keyword exported =>
    (n.parts.flatMap fun v => v.parts.head?.toList.flatMap boundNames).map fun t =>
      ⟨t, if keyword == ("var" : Text) then .variable else .constant, exported, n.start⟩
  | .importDeclaration _ default star names =>
    (default.toList ++ star.toList ++ names.map fun e => e.newName.getD e.name).map fun t =>
      ⟨t, .imported, false, n.start⟩
  | .importAlias name exported _ => [⟨name, .imported, exported, n.start⟩]
  | _ => []

def isFunction (n : Node) : Bool :=
  match n.kind with
  | .declaration .function _ _ _ => true
  | _ => false

/-- Functions are looked at before all other statements. -/
def functionsFirst (statements : List Node) : List Node :=
  statements.filter isFunction ++ statements.filter fun n => !isFunction n

end Statements

structure Names where
  entities : List Entity

namespace Names

def ofStatements (statements : List Node) : Names :=
  ⟨((functionsFirst statements).flatMap entitiesOf).foldl Entity.addTo []⟩

def means (s : Names) (name : Text) (place : Nat) : Bool :=
  let named := s.entities.filter (·.name == name)
  let own := named.filter fun e => !e.exported
  (if own.isEmpty then named else own).any (·.place == place)

end Names
end AnnotationIndex.Script
