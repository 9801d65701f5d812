import AnnotationIndex.Json.Value
import AnnotationIndex.Number.Decimal
import AnnotationIndex.Text.Search

/-!
Scalars of YAML 1.2: what a plain word stands for under the core schema, how the lines of a scalar are
folded, the escapes of double quotes, and the text of a block scalar.
-/
namespace AnnotationIndex.Yaml
open Text

def isSpace (u : UInt16) : Bool := u == 0x20 || u == 0x09

def isBreak (u : UInt16) : Bool := u == 0x0A

def endsWord : Text → Bool
  | [] => true
  | u :: _ => isSpace u || u == 0x0A || u == 0x0D

def trimSpaces (t : Text) : Text := ((t.dropWhile isSpace).reverse.dropWhile isSpace).reverse

def signed : Text → Bool × Text
  | [] => (false, [])
  | u :: rest =>
    if u == unit '-' then (true, rest) else if u == unit '+' then (false, rest) else (false, u :: rest)

def isDigits (t : Text) : Bool := !t.isEmpty && t.all isDigit

def decimalInt? (t : Text) : Option Number :=
  let (negative, ds) := signed t
  if isDigits ds then some (Number.ofDecimal negative (Number.digitsValue ds) 0) else none

def digitValue? (u : UInt16) : Option Nat :=
  if isDigit u then some (u.toNat - 48)
  else if unit 'a' ≤ u && u ≤ unit 'f' then some (u.toNat - 87)
  else if unit 'A' ≤ u && u ≤ unit 'F' then some (u.toNat - 55)
  else none

def inBase? (base : Nat) : Text → Option Nat
  | [] => none
  | ds => ds.foldl (fun n u => do
      let n ← n
      let d ← digitValue? u
      if d < base then return n * base + d else none) (some 0)

def radixInt? (head : String) (base : Nat) (t : Text) : Option Number :=
  let head := ofString head
  if startsWith t head then (inBase? base (t.drop head.length)).map Number.ofNat else none

def exponent? : Text → Option Int
  | [] => some 0
  | u :: rest =>
    if u == unit 'e' || u == unit 'E' then
      let (negative, ds) := signed rest
      if isDigits ds then
        let n : Int := Number.digitsValue ds
        some (if negative then -n else n)
      else none
    else none

/-- A number with a point or an exponent; digits may miss on one side of the point. -/
def float? (t : Text) : Option Number := do
  let (negative, body) := signed t
  let whole := body.takeWhile isDigit
  let (fraction, rest) := match body.dropWhile isDigit with
    | [] => ([], [])
    | u :: more => if u == unit '.' then (more.takeWhile isDigit, more.dropWhile isDigit) else ([], u :: more)
  if whole.isEmpty && fraction.isEmpty then none
  else return Number.ofParts negative whole fraction (← exponent? rest)

def special? (t : Text) : Option Number :=
  let (negative, name) := signed t
  if [".inf", ".Inf", ".INF"].any fun s => name == ofString s then some (.infinite negative)
  else if [".nan", ".NaN", ".NAN"].any fun s => t == ofString s then some .undefined
  else none

def number? (t : Text) : Option Number :=
  (radixInt? "0o" 8 t).orElse fun _ => (decimalInt? t).orElse fun _ => (radixInt? "0x" 16 t).orElse fun _ =>
    (special? t).orElse fun _ => float? t

def isNull (t : Text) : Bool := ["", "~", "null", "Null", "NULL"].any fun s => t == ofString s

def boolean? (t : Text) : Option Bool :=
  if ["true", "True", "TRUE"].any fun s => t == ofString s then some true
  else if ["false", "False", "FALSE"].any fun s => t == ofString s then some false
  else none

def plainValue (t : Text) : Json :=
  if isNull t then .null
  else
    match boolean? t with
    | some b => .bool b
    | none =>
      match number? t with
      | some n => .num n
      | none => .str t

/-- What a scalar stands for under a tag of the core schema; under any other tag it is a text. -/
def taggedValue (tag t : Text) : Json :=
  let value := plainValue t
  let fits := match value with
    | .null => tag == ofString "!!null"
    | .bool _ => tag == ofString "!!bool"
    | .num _ => if (decimalInt? t).isSome || (radixInt? "0o" 8 t).isSome || (radixInt? "0x" 16 t).isSome then
        tag == ofString "!!int" else tag == ofString "!!float"
    | _ => false
  if fits then value else .str t

/- A line break is a space, and each empty line after it a line break of its own. `empties` counts them. -/
def foldFrom : (empties : Nat) → List Text → Text
  | empties, [] => if empties = 0 then [0x20] else List.replicate empties 0x0A
  | empties, line :: rest =>
    if line.isEmpty && !rest.isEmpty then foldFrom (empties + 1) rest
    else
      let gap := if empties = 0 then [0x20] else List.replicate empties 0x0A
      match rest with
      | [] => gap ++ line
      | _ => gap ++ line ++ foldFrom 0 rest

def foldLines : List Text → Text
  | [] => []
  | [line] => line
  | line :: rest => line ++ foldFrom 0 rest

def quotedLines (t : Text) : List Text :=
  match (splitOn 0x0A t).map (dropTail [0x0D]) with
  | [] => []
  | [line] => [line]
  | line :: rest => (line.reverse.dropWhile isSpace).reverse :: trimMore rest
where
  trimMore : List Text → List Text
    | [] => []
    | [line] => [line.dropWhile isSpace]
    | line :: rest => trimSpaces line :: trimMore rest

/- Inside single quotes a quote is written twice. -/
def undouble : Text → Text
  | [] => []
  | [u] => [u]
  | u :: v :: rest => if u == unit '\'' && v == unit '\'' then u :: undouble rest else u :: undouble (v :: rest)

def singleQuoted (t : Text) : Text := undouble (foldLines (quotedLines t))

def escaped? (u : UInt16) : Option UInt16 :=
  [('0', 0x00), ('a', 0x07), ('b', 0x08), ('e', 0x1B), ('f', 0x0C), ('n', 0x0A), ('r', 0x0D), ('t', 0x09),
    ('v', 0x0B), ('N', 0x85), ('_', 0xA0), ('L', 0x2028), ('P', 0x2029), (' ', 0x20), ('"', 0x22), ('/', 0x2F),
    ('\\', 0x5C), ('\t', 0x09)].findSome? fun (c, v) => if u == unit c then some v else none

def codeLength? (u : UInt16) : Option Nat :=
  if u == unit 'x' then some 2 else if u == unit 'u' then some 4 else if u == unit 'U' then some 8 else none

def codeText? (digits : Text) (n : Nat) : Option Text := do
  if digits.length < n then none
  else
    let code ← inBase? 16 digits
    if code ≤ 0x10FFFF then return ofScalar code else none

/-- What a double-quoted text holds back until it knows what follows: white space, or line breaks. -/
inductive Pending where
  | spaces (t : Text)
  | breaks (empties : Nat)

def Pending.text : Pending → Text
  | spaces t => t
  | breaks n => if n = 0 then [0x20] else List.replicate n 0x0A

/- `left` bounds the units still to be read. -/
def doubleFrom : (left : Nat) → Pending → Text → Option Text
  | 0, p, _ => some p.text
  | _ + 1, p, [] => some p.text
  | left + 1, p, u :: rest =>
    if isSpace u then
      match p with
      | .spaces t => doubleFrom left (.spaces (t ++ [u])) rest
      | .breaks n => doubleFrom left (.breaks n) rest
    else if u == 0x0D && rest.head? == some 0x0A then doubleFrom left p rest
    else if isBreak u then
      match p with
      | .spaces _ => doubleFrom left (.breaks 0) rest
      | .breaks n => doubleFrom left (.breaks (n + 1)) rest
    else if u == unit '\\' then do
      match rest with
      | [] => none
      | v :: more =>
        let more := if v == 0x0D && more.head? == some 0x0A then more.drop 1 else more
        if isBreak v || v == 0x0D then
          return p.text ++ (← doubleFrom left (.spaces []) (more.dropWhile isSpace))
        else
          match escaped? v, codeLength? v with
          | some w, _ => return p.text ++ w :: (← doubleFrom left (.spaces []) more)
          | none, some n =>
            return p.text ++ (← codeText? (more.take n) n) ++ (← doubleFrom left (.spaces []) (more.drop n))
          | none, none => none
    else do return p.text ++ u :: (← doubleFrom left (.spaces []) rest)

def doubleQuoted? (t : Text) : Option Text := doubleFrom t.length (.spaces []) t

inductive Chomping where
  | clip
  | strip
  | keep
  deriving DecidableEq

structure BlockStyle where
  folded : Bool
  chomping : Chomping
  indent : Option Nat

/-- A line of a block scalar as the width of its indent and the rest. -/
abbrev BlockLine := Nat × Text

def BlockLine.ofText (line : Text) : BlockLine :=
  let body := line.dropWhile (· == 0x20)
  (line.length - body.length, body)

/-- A line with what its indent has beyond that of the scalar. -/
def BlockLine.text (trim : Nat) (l : BlockLine) : Text := spaces (l.1 - trim) ++ l.2

/- How the text of the folded lines goes on: what separates it from the next line, and whether the last
line was indented further. -/
structure Fold where
  text : Text
  gap : Text
  deeper : Bool

def Fold.step (trim : Nat) (f : Fold) (l : BlockLine) : Fold :=
  if trim < l.1 || l.2.head? == some 0x09 then
    let gap := if f.gap == [0x20] then [0x0A] else if !f.deeper && f.gap == [0x0A] then [0x0A, 0x0A] else f.gap
    ⟨f.text ++ gap ++ BlockLine.text trim l, [0x0A], true⟩
  else if l.2.isEmpty then
    if f.gap == [0x0A] then { f with text := f.text ++ [0x0A] } else { f with gap := [0x0A] }
  else ⟨f.text ++ f.gap ++ l.2, [0x20], false⟩

def blockText (style : BlockStyle) (trim : Nat) (lines : List BlockLine) : Text :=
  let isEmpty (l : BlockLine) : Bool := l.2.isEmpty && l.1 ≤ trim
  let tail := lines.reverse.takeWhile isEmpty
  let body := lines.take (lines.length - tail.length)
  let content :=
    if style.folded then
      let blank := body.takeWhile fun l => l.2.isEmpty
      let folded := (body.drop blank.length).foldl (Fold.step trim) ⟨[], [], false⟩
      (blank.flatMap fun l => BlockLine.text trim l ++ [0x0A]) ++ folded.text
    else join [0x0A] (body.map (BlockLine.text trim))
  match style.chomping with
  | .strip => content
  | .clip => if body.isEmpty then [] else content ++ [0x0A]
  | .keep =>
    if body.isEmpty then tail.map fun _ => 0x0A
    else content ++ [0x0A] ++ tail.map fun _ => 0x0A

end AnnotationIndex.Yaml
