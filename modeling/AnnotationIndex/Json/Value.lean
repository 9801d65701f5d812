import AnnotationIndex.Number.Binary
import AnnotationIndex.Table

/-!
Values of documents, requests and configurations.
-/
namespace AnnotationIndex

inductive Json where
  | null
  | bool (b : Bool)
  | num (n : Number)
  | str (t : Text)
  | arr (items : List Json)
  | obj (fields : List (Text × Json))

namespace Json

instance : Inhabited Json := ⟨null⟩

mutual
def beq : Json → Json → Bool
  | null, null => true
  | bool a, bool b => a == b
  | num a, num b => a == b
  | str s, str t => s == t
  | arr a, arr b => beqItems a b
  | obj a, obj b => beqFields a b
  | _, _ => false
def beqItems : List Json → List Json → Bool
  | [], [] => true
  | a :: as, b :: bs => beq a b && beqItems as bs
  | _, _ => false
def beqFields : List (Text × Json) → List (Text × Json) → Bool
  | [], [] => true
  | (k, a) :: as, (l, b) :: bs => k == l && beq a b && beqFields as bs
  | _, _ => false
end

instance : BEq Json := ⟨beq⟩

def ofNat (n : Nat) : Json := num (Number.ofNat n)
def ofInt (n : Int) : Json := num (Number.ofInt n)
def texts (ts : List Text) : Json := arr (ts.map str)

def fields (entries : List (String × Option Json)) : Json :=
  obj (Table.ofList (entries.filterMap fun e => e.2.map fun v => (Text.ofString e.1, v)))

def field? (key : Text) : Json → Option Json
  | obj fs => Table.get? fs key
  | _ => none

end Json
end AnnotationIndex
