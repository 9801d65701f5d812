import AnnotationIndex.Yaml.Scalar
import AnnotationIndex.Json.Print

/-!
Documents of YAML 1.2: block and flow collections, scalars, anchors and aliases. The column of a node
decides what it belongs to; whatever does not fit is refused, with no attempt to go on behind it.
-/
namespace AnnotationIndex.Yaml
open Text

structure Place where
  column : Nat
  rest : Text
  anchors : Table Json

abbrev Reader (α : Type) := StateT Place Option α

/-- Whether a place lies in a flow collection, how far its lines must be indented, and how deep in flow
collections it is. -/
structure Setting where
  base : Nat
  depth : Nat

def Setting.inFlow (s : Setting) : Bool := s.depth != 0

def isFlowSign (u : UInt16) : Bool := (ofString "[]\x7b\x7d,").elem u

section Places

def Place.move : Nat → Place → Place
  | 0, p => p
  | n + 1, p =>
    match p.rest with
    | [] => p
    | u :: rest => Place.move n { p with column := if u == 0x0A then 0 else p.column + 1, rest := rest }

def ahead : Reader Text := do return (← get).rest

def move (n : Nat) : Reader Unit := modify (Place.move n)

def skipSpaces : Reader Text := do
  let skipped := (← ahead).takeWhile isSpace
  move skipped.length
  return skipped

def startsLineEnd : Text → Bool
  | [] => true
  | [u] => u == 0x0A
  | u :: v :: _ => u == 0x0A || (u == 0x0D && v == 0x0A)

def at? (c : Char) : Reader Bool := do return (← ahead).head? == some (unit c)

/-- Whether an indicator stands here, apart from what follows. -/
def atIndicator (c : Char) : Reader Bool := do
  match ← ahead with
  | [] => return false
  | u :: rest => return u == unit c && endsWord rest

def isMarker (t : Text) : Bool :=
  (startsWith t (ofString "---") || startsWith t (ofString "...")) && endsWord (t.drop 3)

def atMarker : Reader Bool := do
  let p ← get
  return p.column == 0 && isMarker p.rest

def here? : Reader (Option Nat) := do
  let p ← get
  return if p.rest.isEmpty || (← atMarker) then none else some p.column

/- Passes over blank lines and comments. A tab may not stand in the indent of content. -/
def contentFrom (tab comment : Bool) : (column : Nat) → Text → Option (Nat × Text)
  | column, [] => some (column, [])
  | column, u :: rest =>
    if u == 0x0A then contentFrom false false 0 rest
    else if comment then contentFrom tab true (column + 1) rest
    else if u == 0x20 || (u == 0x0D && rest.head? == some 0x0A) then contentFrom tab false (column + 1) rest
    else if u == 0x09 then contentFrom true false (column + 1) rest
    else if u == unit '#' then contentFrom tab true (column + 1) rest
    else if tab then none
    else some (column, u :: rest)

def nextContent : Reader Unit := do
  let p ← get
  let (column, rest) ← contentFrom false false p.column p.rest
  set { p with column, rest }

def atLineEnd (spaced : Bool) : Reader Bool := do
  let rest ← ahead
  return startsLineEnd rest || (spaced && rest.head? == some (unit '#'))

def endLine : Reader Unit := do
  let spaced ← skipSpaces
  if ← atLineEnd (!spaced.isEmpty) then nextContent else failure

structure Gap where
  crossed : Bool
  indent : Nat
  leading : Bool
  comment : Bool
  column : Nat

def gapFrom : Gap → Text → Gap × Text
  | g, [] => (g, [])
  | g, u :: rest =>
    if u == 0x0A then gapFrom ⟨true, 0, true, false, 0⟩ rest
    else
      let next := { g with column := g.column + 1 }
      if g.comment then gapFrom next rest
      else if u == 0x20 then gapFrom { next with indent := if g.leading then g.indent + 1 else g.indent } rest
      else if u == 0x09 then gapFrom { next with leading := false } rest
      else if u == 0x0D && rest.head? == some 0x0A then gapFrom next rest
      else if u == unit '#' then gapFrom { next with comment := true } rest
      else (g, u :: rest)

/-- Passes over white space in a flow collection. A new line has to be indented; only the sign that closes the
outermost collection may stand one column less far in. -/
def flowGap (s : Setting) : Reader Unit := do
  let p ← get
  let (g, rest) := gapFrom ⟨false, 0, false, false, p.column⟩ p.rest
  let closes := rest.head? == some (unit ']') || rest.head? == some (unit '\x7d')
  let outside := g.crossed && ((g.indent < s.base && !(closes && s.depth == 1 && g.indent + 1 == s.base)) ||
    (g.indent == 0 && isMarker rest))
  if outside then failure
  set { p with column := g.column, rest }

end Places

section Scalars

/- The part of a plain scalar on one line, with the white space after it. -/
def pieceFrom (inFlow : Bool) : (afterSpace : Bool) → Text → Text
  | _, [] => []
  | afterSpace, u :: rest =>
    let stops := u == 0x0A || (u == 0x0D && rest.head? == some 0x0A) || (u == unit '#' && afterSpace) ||
      (inFlow && isFlowSign u) ||
      (u == unit ':' && (endsWord rest || (inFlow && (rest.head?.any isFlowSign))))
    if stops then [] else u :: pieceFrom inFlow (isSpace u) rest

def piece (inFlow afterSpace : Bool) (t : Text) : Text :=
  ((pieceFrom inFlow afterSpace t).reverse.dropWhile isSpace).reverse

/- The line with content that follows a line break: how many empty lines come before it, its indent, and how
many units are passed. -/
def nextLine : (empties indent passed : Nat) → Text → Option (Nat × Nat × Nat × Text)
  | _, _, _, [] => none
  | empties, indent, passed, u :: rest =>
    if u == 0x0A then nextLine (empties + 1) 0 (passed + 1) rest
    else if u == 0x20 then nextLine empties (indent + 1) (passed + 1) rest
    else if u == 0x0D && rest.head? == some 0x0A then nextLine empties indent (passed + 1) rest
    else some (empties, indent, passed, u :: rest)

/- The further lines of a plain scalar, with an empty one for every empty line. -/
def moreLines (s : Setting) : Nat → Reader (List Text)
  | 0 => return []
  | n + 1 => do
    let rest ← ahead
    let gap := (rest.takeWhile isSpace).length
    let rest := rest.drop gap
    unless startsLineEnd rest do return []
    match nextLine 0 0 0 rest with
    | none => return []
    | some (breaks, indent, passed, line) =>
      if indent < s.base || (indent == 0 && isMarker line) then return []
      else
        let tabs := (line.takeWhile isSpace).length
        let body := piece s.inFlow true (line.drop tabs)
        if body.isEmpty then return []
        else
          move (gap + passed + tabs + body.length)
          return List.replicate (breaks - 1) [] ++ body :: (← moreLines s n)

/- What no plain scalar starts with. -/
def refusedStart : Text := ofString "[]\x7b\x7d,%@|>\x60"

def plain (s : Setting) : Reader Text := do
  let rest ← ahead
  if rest.head?.any refusedStart.elem then failure
  let first := piece s.inFlow false rest
  if first.isEmpty then failure
  move first.length
  return foldLines (first :: (← moreLines s rest.length))

/- The text up to the closing quote. -/
def singleSpan : Text → Option Text
  | [] => none
  | [u] => if u == unit '\'' then some [] else none
  | u :: v :: rest =>
    if u == unit '\'' then
      if v == unit '\'' then (singleSpan rest).map fun t => u :: v :: t else some []
    else (singleSpan (v :: rest)).map (u :: ·)

def doubleSpan : Text → Option Text
  | [] => none
  | [u] => if u == unit '"' then some [] else none
  | u :: v :: rest =>
    if u == unit '"' then some []
    else if u == unit '\\' then (doubleSpan rest).map fun t => u :: v :: t
    else (doubleSpan (v :: rest)).map (u :: ·)

def isIndented (base : Nat) (quoted : Text) : Bool :=
  let lines := (splitOn 0x0A quoted).drop 1
  lines.zipIdx.all fun (line, i) =>
    let body := line.dropWhile (· == 0x20)
    let isEmpty := i + 1 < lines.length && (body.isEmpty || body == [0x0D])
    isEmpty || (base ≤ line.length - body.length && !isMarker line)

def quoted (s : Setting) (double : Bool) : Reader Text := do
  let rest := (← ahead).drop 1
  let span ← if double then doubleSpan rest else singleSpan rest
  unless isIndented s.base span do failure
  move (span.length + 2)
  if double then doubleQuoted? span else return singleQuoted span

/- The lines of a block scalar: those that are indented as far as its content, and empty ones. -/
def blockLines (trim : Nat) : List Text → List Text
  | [] => []
  | line :: rest =>
    let l := BlockLine.ofText line
    if trim ≤ l.1 || l.2.isEmpty || l.2 == [0x0D] then line :: blockLines trim rest else []

/-- The style that the signs after `|` or `>` state. -/
def blockStyle (folded : Bool) (signs : Text) : BlockStyle where
  folded := folded
  chomping := if signs.elem (unit '+') then .keep else if signs.elem (unit '-') then .strip else .clip
  indent := ((signs.filter isDigit).head?).map fun u => u.toNat - 48

def blockScalar (parent : Int) : Reader Text := do
  let folded ← at? '>'
  move 1
  let signs := (← ahead).takeWhile fun u => isDigit u || u == unit '+' || u == unit '-'
  if 1 < (signs.filter isDigit).length || signs.elem (unit '0') || 2 < signs.length then failure
  move signs.length
  let spaced ← skipSpaces
  unless ← atLineEnd (!spaced.isEmpty) do failure
  move ((← ahead).takeWhile (· != 0x0A)).length
  move 1
  let style := blockStyle folded signs
  let lines := splitOn 0x0A (← ahead)
  let lines := if lines.getLast? == some [] then lines.dropLast else lines
  let shown := (lines.map fun l => BlockLine.ofText (dropTail [0x0D] l)).find? fun l => !l.2.isEmpty
  let least := (parent + 1).toNat
  let trim := match style.indent with
    | some d => (max parent 0).toNat + d
    | none => max least ((shown.map fun l => l.1).getD least)
  let body := blockLines trim lines
  let read := body.foldl (fun n l => n + l.length + 1) 0
  let body := body.map fun l => BlockLine.ofText (dropTail [0x0D] l)
  if (body.takeWhile fun l => l.2.isEmpty).any (fun l => trim < l.1) && style.indent.isNone && shown.isSome then failure
  move read
  return blockText style trim body

end Scalars

structure Properties where
  anchor : Option Text
  tag : Option Text

def Properties.isEmpty (p : Properties) : Bool := p.anchor.isNone && p.tag.isNone

def propertyText : Reader Text := do
  let t := (← ahead).takeWhile fun u => !(isSpace u || u == 0x0A || u == 0x0D || isFlowSign u)
  move t.length
  return t

/- There are at most two, in either order. -/
def properties : Nat → Properties → Reader Properties
  | 0, p => return p
  | n + 1, p => do
    if ← at? '&' then
      let t ← propertyText
      if p.anchor.isSome then failure
      let _ ← skipSpaces
      properties n { p with anchor := some (t.drop 1) }
    else if ← at? '!' then
      let t ← propertyText
      if p.tag.isSome then failure
      let _ ← skipSpaces
      properties n { p with tag := some t }
    else return p

def propertiesHere : Reader Properties := properties 2 ⟨none, none⟩

def named (p : Properties) (v : Json) : Reader Json := do
  if let some a := p.anchor then modify fun s => { s with anchors := s.anchors.insert a v }
  return v

def scalarValue (p : Properties) (isPlain : Bool) (t : Text) : Json :=
  match p.tag with
  | some tag => taggedValue tag t
  | none => if isPlain then plainValue t else .str t

/-- The value of a node of which only properties are written. -/
def emptyValue (p : Properties) : Json := scalarValue p true []

def keyText : Json → Text
  | .null => []
  | .str t => t
  | .num n => n.toText
  | .bool b => if b then "true" else "false"
  | v => Json.compact v

def isScalar : Json → Bool
  | .arr _ => false
  | .obj _ => false
  | _ => true

/-- The object of these entries; no two keys may be the same scalar. -/
def objectOf (entries : List (Json × Json)) : Reader Json := do
  if hasTwice (entries.map (·.1)) then failure
  return .obj (Table.ofList (entries.map fun (k, v) => (keyText k, v)))
where
  hasTwice : List Json → Bool
    | [] => false
    | k :: rest => (isScalar k && rest.any fun l => isScalar l && l == k) || hasTwice rest

def spanning {α : Type} (r : Reader α) : Reader (α × Bool) := do
  let before ← ahead
  let a ← r
  let after ← ahead
  return (a, (before.take (before.length - after.length)).elem 0x0A)

section Flow

/-- Whether a colon stands here that ends a key. It need not be set apart after a key in quotes or brackets. -/
def atFlowColon (bracketed : Bool) : Reader Bool := do
  match ← ahead with
  | [] => return false
  | u :: rest => return u == unit ':' && (bracketed || endsWord rest || rest.head?.any isFlowSign)

def atFlowEnd : Reader Bool := do return (← at? ',') || (← at? ']') || (← at? '\x7d')

mutual

def flowNode (s : Setting) : Nat → Reader Json
  | 0 => failure
  | n + 1 => do
    let p ← propertiesHere
    if ← at? '[' then
      move 1
      let items ← flowItems { s with depth := s.depth + 1 } n
      named p (.arr items)
    else if ← at? '\x7b' then
      move 1
      let entries ← flowEntries { s with depth := s.depth + 1 } n
      named p (← objectOf entries)
    else if ← at? '"' then named p (scalarValue p false (← quoted s true))
    else if ← at? '\'' then named p (scalarValue p false (← quoted s false))
    else if ← at? '*' then
      let name ← propertyText
      let known ← get
      known.anchors.get? (name.drop 1)
    else if !p.isEmpty && ((s.inFlow && (← atFlowEnd)) || (← atIndicator ':') || startsLineEnd (← ahead)) then
      named p (emptyValue p)
    else
      if s.inFlow && (← at? '-') && ((← ahead).drop 1).head?.all (fun u => isFlowSign u || isSpace u || u == 0x0A) then
        failure
      named p (scalarValue p true (← plain s))

def flowEntry (s : Setting) : Nat → Reader (Json × Option Json)
  | 0 => failure
  | n + 1 => do
    if ← atIndicator '?' then
      move 1
      flowGap s
    let bracketed := (← at? '"') || (← at? '\'') || (← at? '[') || (← at? '\x7b')
    let key ← if ← atFlowColon false then pure Json.null else flowNode s n
    flowGap s
    if ← atFlowColon bracketed then
      move 1
      flowGap s
      let value ← if ← atFlowEnd then pure Json.null else flowNode s n
      return (key, some value)
    else return (key, none)

/-- The items of a list up to its closing bracket. An item with a colon is an object of one entry. -/
def flowItems (s : Setting) : Nat → Reader (List Json)
  | 0 => failure
  | n + 1 => do
    flowGap s
    if ← at? ']' then
      move 1
      return []
    let ((key, value), _) ← spanning (flowEntry s n)
    let item := match value with
      | none => key
      | some v => .obj [(keyText key, v)]
    flowGap s
    if ← at? ',' then
      move 1
      return item :: (← flowItems s n)
    else if ← at? ']' then
      move 1
      return [item]
    else failure

def flowEntries (s : Setting) : Nat → Reader (List (Json × Json))
  | 0 => failure
  | n + 1 => do
    flowGap s
    if ← at? '\x7d' then
      move 1
      return []
    let (key, value) ← flowEntry s n
    let entry := (key, value.getD .null)
    flowGap s
    if ← at? ',' then
      move 1
      return entry :: (← flowEntries s n)
    else if ← at? '\x7d' then
      move 1
      return [entry]
    else failure

end

end Flow

section Block

def settingIn (parent : Int) : Setting := ⟨(parent + 1).toNat, 0⟩

def atKey (parent : Int) (fuel : Nat) : Reader Bool := fun p =>
  let key : Reader Bool := do
    let (_, crossed) ← spanning (flowNode (settingIn parent) fuel)
    let _ ← skipSpaces
    if ← atIndicator ':' then
      if crossed then failure
      return true
    else return false
  match key p with
  | some (b, _) => some (b, p)
  | none => none

mutual

/-- A node in a node with that column; reads on to the content after it. -/
def blockNode (parent : Int) : Nat → Reader Json
  | 0 => failure
  | n + 1 => do
    let column := (← get).column
    if ← atIndicator '-' then return .arr (← blockItems column n)
    else if (← atIndicator '?') || (← atIndicator ':') then objectOf (← blockEntries column n)
    else
      let start ← get
      let p ← propertiesHere
      if !p.isEmpty && (← atLineEnd true) then
        endLine
        match ← here? with
        | some i => if parent < i then named p (← blockNode parent n) else named p (emptyValue p)
        | none => named p (emptyValue p)
      else if (← at? '|') || (← at? '>') then
        let t ← blockScalar parent
        nextContent
        named p (scalarValue p false t)
      else
        set start
        if ← atKey parent n then objectOf (← blockEntries column n)
        else
          let v ← flowNode (settingIn parent) n
          endLine
          return v

def blockItems (column : Nat) : Nat → Reader (List Json)
  | 0 => failure
  | n + 1 => do
    move 1
    let item ← blockValue column false n
    match ← here? with
    | some i =>
      if i = column && (← atIndicator '-') then return item :: (← blockItems column n)
      else if column < i then failure
      else return [item]
    | none => return [item]

def blockEntries (column : Nat) : Nat → Reader (List (Json × Json))
  | 0 => failure
  | n + 1 => do
    let entry ← blockEntry column n
    match ← here? with
    | some i =>
      if i = column then
        if ← atIndicator '-' then failure
        return entry :: (← blockEntries column n)
      else if column < i then failure
      else return [entry]
    | none => return [entry]

def blockEntry (column : Nat) : Nat → Reader (Json × Json)
  | 0 => failure
  | n + 1 => do
    if ← atIndicator '?' then
      move 1
      let key ← blockValue column false n
      if (← here?) == some column && (← atIndicator ':') then
        move 1
        return (key, ← blockValue column false n)
      else return (key, .null)
    else
      let key ← if ← atIndicator ':' then pure Json.null else
        let (key, crossed) ← spanning (flowNode (settingIn column) n)
        if crossed then failure
        let _ ← skipSpaces
        unless ← atIndicator ':' do failure
        pure key
      move 1
      return (key, ← blockValue column true n)

/-- What follows the sign of an item or of a key in that column: a node on the same line or on the next ones.
On the line of its key a value is no block collection; below it a list may stand in the column of the key. -/
def blockValue (column : Int) (ofKey : Bool) : Nat → Reader Json
  | 0 => failure
  | n + 1 => do
    let spaced ← skipSpaces
    let start ← get
    let p ← propertiesHere
    if ← atLineEnd true then
      endLine
      match ← here? with
      | none => named p (emptyValue p)
      | some i =>
        if column < i then named p (← blockNode column n)
        else if ofKey && column = i && (← atIndicator '-') then named p (.arr (← blockItems i n))
        else named p (emptyValue p)
    else if ofKey then
      if (← atIndicator '-') || (← atIndicator '?') then failure
      else if (← at? '|') || (← at? '>') then
        let t ← blockScalar column
        nextContent
        named p (scalarValue p false t)
      else
        set start
        let v ← flowNode (settingIn column) n
        endLine
        return v
    else
      set start
      let opens := (← at? '[') || (← at? '\x7b')
      let v ← blockNode column n
      if spaced.elem 0x09 && !opens && !isScalar v then failure
      return v

end

end Block

/- Lines of directives before the mark that starts a document. -/
def directives : Nat → Reader Bool
  | 0 => return false
  | n + 1 => do
    nextContent
    if (← get).column = 0 && (← at? '%') then
      move ((← ahead).takeWhile (· != 0x0A)).length
      let _ ← directives n
      return true
    else return false

def document (fuel : Nat) : Reader Json := do
  let directed ← directives fuel
  let v ←
    if (← atMarker) && (← at? '-') then do
      move 3
      blockValue (-1) true fuel
    else if directed || (← atMarker) then failure
    else if (← ahead).isEmpty then pure .null
    else blockNode (-1) fuel
  if (← atMarker) && (← at? '.') then
    move 3
    endLine
  if (← ahead).isEmpty then return v else failure

/- Every step of the reader passes a unit or opens a part of a node, at most four between two units. -/
def fuelFor (t : Text) : Nat := 6 * t.length + 12

def byteOrderMark : UInt16 := 0xFEFF

def parse (t : Text) : Option Json :=
  let t := dropHead [byteOrderMark] t
  (document (fuelFor t) ⟨0, t, []⟩).map (·.1)

end AnnotationIndex.Yaml
