import AnnotationIndex.Json.Value

/-!
What the parameters of an annotation say, by the kind of its namespace.
-/
namespace AnnotationIndex

/-- How far a piece of code may be changed, the strictest first. -/
inductive LockLevel where
  | frozen
  | restricted
  | approvalRequired
  | testsRequired
  | docsRequired
  | normal
  deriving DecidableEq, Repr

namespace LockLevel

def all : List LockLevel :=
  [frozen, restricted, approvalRequired, testsRequired, docsRequired, normal]

def name : LockLevel → Text
  | frozen => "frozen"
  | restricted => "restricted"
  | approvalRequired => "approval-required"
  | testsRequired => "tests-required"
  | docsRequired => "docs-required"
  | normal => "normal"

def ofName? (t : Text) : Option LockLevel := all.find? (·.name == t)

def directive : LockLevel → Text
  | frozen => "MUST NOT modify this code under any circumstances"
  | restricted => "Explain proposed changes and wait for explicit approval"
  | approvalRequired => "Propose changes and request confirmation before applying"
  | testsRequired => "All changes must include corresponding tests"
  | docsRequired => "All changes must update documentation"
  | normal => "Safe to modify following project conventions"

end LockLevel

inductive Stability where
  | stable
  | experimental
  | deprecated
  deriving DecidableEq, Repr

namespace Stability

def all : List Stability := [stable, experimental, deprecated]

def name : Stability → Text
  | stable => "stable"
  | experimental => "experimental"
  | deprecated => "deprecated"

def ofName? (t : Text) : Option Stability := all.find? (·.name == t)

end Stability

inductive Payload where
  | lock (level : LockLevel)
  | ref (target : Text)
  | hack (expires ticket reason : Option Text)
  | deprecated (replacement : Option Text)
  | note (note : Option Text)
  | name (name : Text)
  | text (text : Text)
  | stability (level : Stability)
  | list (names : List Text)
  | custom (parameters : Text)
  deriving DecidableEq

namespace Payload

def toJson : Payload → Json
  | lock level => Json.fields [("kind", some (.str "lock")), ("level", some (.str level.name))]
  | ref target => Json.fields [("kind", some (.str "ref")), ("url", some (.str target))]
  | hack expires ticket reason =>
    Json.fields [("kind", some (.str "hack")), ("expires", expires.map .str),
      ("ticket", ticket.map .str), ("reason", reason.map .str)]
  | deprecated replacement =>
    Json.fields [("kind", some (.str "deprecated")), ("replacement", replacement.map .str)]
  | note n => Json.fields [("kind", some (.str "note")), ("note", n.map .str)]
  | name n => Json.fields [("kind", some (.str "name")), ("name", some (.str n))]
  | text t => Json.fields [("kind", some (.str "text")), ("text", some (.str t))]
  | stability level => Json.fields [("kind", some (.str "stability")), ("level", some (.str level.name))]
  | list names => Json.fields [("kind", some (.str "list")), ("names", some (Json.texts names))]
  | custom parameters =>
    Json.fields [("kind", some (.str "custom")), ("rawParameters", some (.str parameters))]

def name? : Payload → Option Text
  | name n => some n
  | _ => none

def level? : Payload → Option LockLevel
  | lock level => some level
  | _ => none

end Payload
end AnnotationIndex
