import AnnotationIndex.Index.Basic
import AnnotationIndex.Text.Order
import AnnotationIndex.Text.Search

/-!
Looking things up in an index by name. A symbol is found by its qualified name, and else by its name alone or with its
container, if no other symbol has that name.
-/
namespace AnnotationIndex
open Text

inductive Finding (α : Type) where
  | found (value : α)
  | notFound (name : Text)
  | ambiguous (name : Text) (candidates : List Text)
  deriving DecidableEq

namespace Finding
variable {α β : Type}

def bind (l : Finding α) (f : α → Finding β) : Finding β :=
  match l with
  | found a => f a
  | notFound name => .notFound name
  | ambiguous name candidates => .ambiguous name candidates

def map (f : α → β) (l : Finding α) : Finding β := l.bind fun a => .found (f a)

def ofOption (name : Text) : Option α → Finding α
  | some a => .found a
  | none => .notFound name

end Finding

/-- A symbol with the constraint that holds for it, its own or that of its file. -/
structure SymbolView where
  symbol : SymbolRecord
  constraint : Constraint
  source : ConstraintSource
  deriving DecidableEq

def SymbolRecord.answersTo (s : SymbolRecord) (name : Text) : Bool := s.name == name || s.displayName == name

namespace ProjectIndex

def candidates (r : ProjectIndex) (name : Text) : List Text :=
  ((r.symbols.values.filter fun s => s.answersTo name).map (·.qualifiedName)).mergeSort Text.le

def findSymbol (r : ProjectIndex) (name : Text) : Finding SymbolRecord :=
  match Table.get? r.symbols name with
  | some s => .found s
  | none =>
    match r.candidates name with
    | [] => .notFound name
    | [q] => .ofOption name (Table.get? r.symbols q)
    | q :: p :: rest => .ambiguous name (q :: p :: rest)

def symbolView (r : ProjectIndex) (name : Text) : Finding SymbolView :=
  (r.findSymbol name).bind fun s =>
    .ofOption name ((Table.get? r.files s.file).map fun f =>
      let (constraint, source) := Constraint.effective s.constraint f.constraint
      ⟨s, constraint, source⟩)

/-- A path as it is typed: with either slash, and from the current directory. -/
def typedPath (path : Text) : Text := dropHead (ofString "./") (replaceUnit (unit '\\') (unit '/') path)

def findFile (r : ProjectIndex) (path : Text) : Finding FileRecord :=
  .ofOption path (Table.get? r.files (typedPath path))

def findDomain (r : ProjectIndex) (name : Text) : Finding DomainRecord := .ofOption name (Table.get? r.domains name)

def callersOf (r : ProjectIndex) (name : Text) : Finding (List Text) := (r.findSymbol name).map (·.callers)

def calleesOf (r : ProjectIndex) (name : Text) : Finding (List Text) := (r.findSymbol name).map (·.callees)

end ProjectIndex
end AnnotationIndex
