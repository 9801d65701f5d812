import AnnotationIndex.Text.Unit

/-!
Tables from texts to values, with a visible key order: keys that spell an index (a decimal below
2^32 - 1 without leading zeros) come first in numeric order, all others follow in the order in which
they were first put in. Putting an existing key keeps its place.
-/
namespace AnnotationIndex

abbrev Table (α : Type) := List (Text × α)

namespace Table
variable {α β : Type}

def indexLimit : Nat := 4294967295

def index? (key : Text) : Option Nat :=
  match key with
  | [] => none
  | u :: rest =>
    if key.all Text.isDigit && (rest.isEmpty || u != Text.unit '0') && key.length ≤ 10 then
      let n := key.foldl (fun n u => n * 10 + (u.toNat - 48)) 0
      if n < indexLimit then some n else none
    else none

def goesBefore (new old : Text) : Bool :=
  match index? new, index? old with
  | some m, some n => m < n
  | some _, none => true
  | none, _ => false

def get? (t : Table α) (key : Text) : Option α := t.lookup key

def has (t : Table α) (key : Text) : Bool := t.any (·.1 == key)

def keys (t : Table α) : List Text := t.map (·.1)

def values (t : Table α) : List α := t.map (·.2)

def replace (key : Text) (value : α) (t : Table α) : Table α :=
  t.map fun e => if e.1 == key then (key, value) else e

def place (key : Text) (value : α) : Table α → Table α
  | [] => [(key, value)]
  | e :: rest => if goesBefore key e.1 then (key, value) :: e :: rest else e :: place key value rest

def insert (t : Table α) (key : Text) (value : α) : Table α :=
  if t.has key then replace key value t else place key value t

def ofList (entries : List (Text × α)) : Table α := entries.foldl (fun t e => t.insert e.1 e.2) []

/- The name that no table of an index has as a key. -/
def droppedKey : Text := "__proto__"

def put (t : Table α) (key : Text) (value : α) : Table α := if key == droppedKey then t else t.insert key value

/-- The names that every record of an index has besides its own keys. -/
def inherited : List Text := List.map Text.ofString
  ["constructor", "__defineGetter__", "__defineSetter__", "hasOwnProperty", "__lookupGetter__",
    "__lookupSetter__", "isPrototypeOf", "propertyIsEnumerable", "toString", "valueOf", "__proto__",
    "toLocaleString"]

def isInherited (key : Text) : Bool := inherited.elem key

def erase (t : Table α) (key : Text) : Table α := t.filter (·.1 != key)

def mapValues (f : α → β) (t : Table α) : Table β := t.map fun e => (e.1, f e.2)

end Table
end AnnotationIndex
