import AnnotationIndex.Text.CaseTable
import AnnotationIndex.Text.Unit

/-!
Lower case by the full mapping of Unicode: a dotted capital I becomes two characters, and a capital
sigma at the end of a word its final form. Comparison without regard to case goes unit by unit through
the upper-case mapping.
-/
namespace AnnotationIndex.Text

def inRows (rows : Array (Nat × Nat)) (n : Nat) : Bool := rows.any fun r => r.1 ≤ n && n ≤ r.2

/-- The image under a mapping, the value itself where no row has it. -/
def mapRows (rows : Array (Nat × Nat × Nat × Int)) (n : Nat) : Nat :=
  match rows.find? fun (a, b, step, _) => a ≤ n && n ≤ b && (n - a) % step = 0 with
  | some (_, _, _, d) => (n + d).toNat
  | none => n

def isCased (n : Nat) : Bool := inRows casedRows n
def isCaseIgnorable (n : Nat) : Bool := inRows caseIgnorableRows n

def capitalSigma : Nat := 0x3A3
def finalSigma : Nat := 0x3C2

/-- Whether a cased letter comes next, after what is passed over. -/
def meetsCased (ns : List Nat) : Bool :=
  match ns.dropWhile isCaseIgnorable with
  | n :: _ => isCased n
  | [] => false

def lowerScalar (before after : List Nat) (n : Nat) : List Nat :=
  if n < 0x80 then [if 65 ≤ n && n ≤ 90 then n + 32 else n]
  else if n = 0x130 then [0x69, 0x307]
  else if n = capitalSigma then
    [if meetsCased before && !meetsCased after then finalSigma else 0x3C3]
  else [mapRows lowerRows n]

/- The values passed so far are held in reverse. -/
def lowerFrom (before : List Nat) : List Nat → List Nat
  | [] => []
  | n :: rest => lowerScalar before rest n ++ lowerFrom (n :: before) rest

def lower (t : Text) : Text := (lowerFrom [] (scalars t)).flatMap ofScalar

/-- What units are compared by when case does not count. -/
def foldUnit (u : UInt16) : UInt16 :=
  if u < 0x80 then (if 97 ≤ u && u ≤ 122 then u - 32 else u) else (mapRows upperRows u.toNat).toUInt16

end AnnotationIndex.Text
