import AnnotationIndex.Json.Value
import AnnotationIndex.Number.Decimal
import AnnotationIndex.Text.Search

/-!
Typed reading of values. A check reads a value, or the lack of one, and either gives the typed value or
lists every issue found, in the order of the fields, each with the path to where it is.
-/
namespace AnnotationIndex

inductive PathStep where
  | key (name : Text)
  | index (n : Nat)
  deriving DecidableEq

structure Issue where
  path : List PathStep
  message : Text
  deriving DecidableEq

inductive Checked (α : Type) where
  | ok (value : α)
  | bad (issues : List Issue)

abbrev Check (α : Type) := Option Json → Checked α

def PathStep.text : PathStep → Text
  | key name => name
  | index n => Text.ofNat n

namespace Issue

def under (step : PathStep) (i : Issue) : Issue := { i with path := step :: i.path }

def describe (i : Issue) : Text :=
  let path := Text.join "." (i.path.map PathStep.text)
  if path.isEmpty then i.message else path ++ ": " ++ i.message

def describeAll (is : List Issue) : Text := Text.join "; " (is.map describe)

def toJson (i : Issue) : Json :=
  Json.fields [
    ("path", some (.arr (i.path.map fun
      | .key name => .str name
      | .index n => Json.ofNat n))),
    ("message", some (.str i.message))]

end Issue

namespace Checked
variable {α β : Type}

def map (f : α → β) : Checked α → Checked β
  | ok a => ok (f a)
  | bad is => bad is

/-- Both parts are checked, and the issues of both are kept. -/
def both (f : Checked (α → β)) (a : Checked α) : Checked β :=
  match f, a with
  | ok f, ok a => ok (f a)
  | ok _, bad is => bad is
  | bad is, ok _ => bad is
  | bad is, bad js => bad (is ++ js)

instance : Applicative Checked where
  pure := ok
  map := map
  seq f a := both f (a ())

def issues : Checked α → List Issue
  | ok _ => []
  | bad is => is

def under (step : PathStep) : Checked α → Checked α
  | ok a => ok a
  | bad is => bad (is.map (Issue.under step))

def fail (message : Text) : Checked α := bad [⟨[], message⟩]

def all : List (Checked α) → Checked (List α)
  | [] => ok []
  | a :: rest => both (map List.cons a) (all rest)

end Checked

namespace Check
variable {α β : Type}

def kindName : Json → Text
  | .null => "null"
  | .bool _ => "boolean"
  | .num .undefined => "nan"
  | .num _ => "number"
  | .str _ => "string"
  | .arr _ => "array"
  | .obj _ => "object"

def mismatch (expected : Text) : Option Json → Text
  | none => "Required"
  | some v => "Expected " ++ expected ++ ", received " ++ kindName v

def string : Check Text
  | some (.str t) => .ok t
  | v => .fail (mismatch "string" v)

def boolean : Check Bool
  | some (.bool b) => .ok b
  | v => .fail (mismatch "boolean" v)

/-- A number under further tests; each test that fails is an issue of its own. -/
def numberWith (tests : List (Number → Option Text)) : Check Number
  | some (.num n) =>
    if n = .undefined then .fail (mismatch "number" (some (.num n)))
    else
      match tests.filterMap fun test => test n with
      | [] => .ok n
      | ms => .bad (ms.map fun m => ⟨[], m⟩)
  | v => .fail (mismatch "number" v)

def isWhole (n : Number) : Option Text :=
  if n.toInt?.isSome then none else some "Expected integer, received float"

def atLeast (low : Number) (n : Number) : Option Text :=
  if n.lt low then some ("Number must be greater than or equal to " ++ low.toText) else none

def atMost (high : Number) (n : Number) : Option Text :=
  if high.lt n then some ("Number must be less than or equal to " ++ high.toText) else none

def number : Check Number := numberWith []

def intWith (tests : List (Number → Option Text)) : Check Int := fun v =>
  (numberWith (isWhole :: tests) v).map fun n => n.toInt?.getD 0

def int : Check Int := intWith []

def unitInterval : Check Number := numberWith [atLeast Number.zero, atMost (Number.ofNat 1)]

def alternatives (names : List Text) : Text :=
  Text.join " | " (names.map fun n => "'" ++ n ++ "'")

def unknownName (names : List Text) (received : Text) : Text :=
  "Invalid enum value. Expected " ++ alternatives names ++ ", received '" ++ received ++ "'"

def oneOf (names : List Text) (ofName? : Text → Option α) : Check α
  | some (.str t) =>
    match ofName? t with
    | some a => .ok a
    | none => .fail (unknownName names t)
  | v => .fail (mismatch (alternatives names) v)

/-- As `oneOf`, but a number is taken for an unknown name. -/
def codeOf (names : List Text) (ofName? : Text → Option α) : Check α
  | some (.num n) =>
    if n = .undefined then .fail (mismatch (alternatives names) (some (.num n)))
    else .fail (unknownName names n.toText)
  | v => oneOf names ofName? v

def optional (c : Check α) : Check (Option α)
  | none => .ok none
  | some v => (c (some v)).map some

def nullable (c : Check α) : Check (Option α)
  | some .null => .ok none
  | v => (c v).map some

def withDefault (default : α) (c : Check α) : Check α
  | none => .ok default
  | v => c v

def trueOrMissing : Check Bool
  | none => .ok false
  | some (.bool true) => .ok true
  | some _ => .fail "Invalid literal value, expected true"

def list (c : Check α) : Check (List α)
  | some (.arr items) =>
    Checked.all (items.zipIdx.map fun (v, i) => (c (some v)).under (.index i))
  | v => .fail (mismatch "array" v)

def texts : Check (List Text) := list string

def table (c : Check α) : Check (Table α)
  | some (.obj fs) =>
    (Checked.all (fs.map fun (k, v) => ((c (some v)).under (.key k)).map fun a => (k, a))).map fun es =>
      Table.ofList (es.filter fun e => e.1 != Table.droppedKey)
  | v => .fail (mismatch "object" v)

def object (read : List (Text × Json) → Checked α) : Check α
  | some (.obj fs) => read fs
  | v => .fail (mismatch "object" v)

def field (fs : List (Text × Json)) (key : String) (c : Check α) : Checked α :=
  (c (Table.get? fs (Text.ofString key))).under (.key (Text.ofString key))

end Check
end AnnotationIndex
