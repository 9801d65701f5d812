import AnnotationIndex.Text.Case
import AnnotationIndex.Text.IdentifierTable
import AnnotationIndex.Text.Search

/-!
Tokens of TypeScript and JavaScript. Tokens are read one at a time, since what a slash, a brace or an
angle bracket begins depends on what the grammar expects there: the reader of a token starts anew from
the token's own place where another reading is wanted.
-/
namespace AnnotationIndex.Script
open Text

inductive TokenKind where
  /-- An identifier or keyword; one that is spelled with an escape is no keyword. -/
  | word (name : Text) (escaped : Bool)
  | privateName (name : Text)
  | number
  | string (value : Text)
  /-- A template up to its end or to its first substitution. -/
  | template (value : Text) (complete : Bool)
  | regex
  | punctuator (sign : Text)
  | done
  | unknown
  deriving DecidableEq

structure Token where
  kind : TokenKind
  start : Nat
  stop : Nat
  afterLineBreak : Bool
  deriving DecidableEq

/- Blanks between tokens: besides those of other texts the next-line and zero-width-space characters. -/
def isSpace (u : UInt16) : Bool := isBlank u || u == 0x85 || u == 0x200B

def isIdentifierStart (n : Nat) : Bool :=
  if n < 0x80 then isWordStart n.toUInt16 || n = 0x24 else inRows identifierStartRows n

def isIdentifierPart (n : Nat) : Bool :=
  if n < 0x80 then isWord n.toUInt16 || n = 0x24
  else n = 0x200C || n = 0x200D || inRows identifierPartRows n

/-- Between tokens, in a comment to the end of the line, or in a block comment; at the second unit of a
delimiter where `opening` or `closing`. -/
inductive Trivia where
  | space
  | line
  | opening
  | block
  | closing

/-- The text after blanks and comments, how many units they take, and whether a line breaks in them. -/
def skipFrom : Trivia → (passed : Nat) → (lineBreak : Bool) → Text → Text × Nat × Bool
  | _, n, b, [] => ([], n, b)
  | .space, n, b, u :: rest =>
    if isSpace u then skipFrom .space (n + 1) (b || isLineTerminator u) rest
    else if u == unit '/' && rest.head? == some (unit '/') then skipFrom .line (n + 1) b rest
    else if u == unit '/' && rest.head? == some (unit '*') then skipFrom .opening (n + 1) b rest
    else (u :: rest, n, b)
  | .line, n, b, u :: rest =>
    if isLineTerminator u then skipFrom .space (n + 1) true rest else skipFrom .line (n + 1) b rest
  | .opening, n, b, _ :: rest => skipFrom .block (n + 1) b rest
  | .block, n, b, u :: rest =>
    if u == unit '*' && rest.head? == some (unit '/') then skipFrom .closing (n + 1) b rest
    else skipFrom .block (n + 1) (b || isLineTerminator u) rest
  | .closing, n, b, _ :: rest => skipFrom .space (n + 1) b rest

structure Reading where
  kind : TokenKind
  length : Nat
  rest : Text

def hexValue (t : Text) : Nat :=
  t.foldl (fun n u => n * 16 + (if isDigit u then u.toNat - 48 else (u ||| 0x20).toNat - 87)) 0

def isHex (u : UInt16) : Bool :=
  isDigit u || (unit 'a' ≤ u && u ≤ unit 'f') || (unit 'A' ≤ u && u ≤ unit 'F')

/-- The scalar value of an escape, given what follows `\u`: four digits, or digits in braces. -/
def unicodeEscape? (t : Text) : Option (Nat × Nat × Text) :=
  match t with
  | u :: rest =>
    if u == unit '\x7b' then
      let digits := rest.takeWhile isHex
      match rest.dropWhile isHex with
      | v :: more =>
        if v == unit '\x7d' && !digits.isEmpty then some (hexValue digits, digits.length + 2, more) else none
      | [] => none
    else
      let digits := t.take 4
      if digits.length = 4 && digits.all isHex then some (hexValue digits, 4, t.drop 4) else none
  | [] => none

def firstScalar : Text → Nat × Nat
  | u :: v :: _ => if isHighSurrogate u && isLowSurrogate v then (joinPair u v, 2) else (u.toNat, 1)
  | [u] => (u.toNat, 1)
  | [] => (0, 0)

def readWord : Nat → Text → Text × Bool × Nat × Text
  | 0, t => ([], false, 0, t)
  | fuel + 1, t =>
    match t with
    | [] => ([], false, 0, [])
    | u :: rest =>
      if u == unit '\\' && rest.head? == some (unit 'u') then
        match unicodeEscape? (rest.drop 1) with
        | some (n, used, after) =>
          let (name, _, length, rest) := readWord fuel after
          (ofScalar n ++ name, true, length + used + 2, rest)
        | none => ([], false, 0, t)
      else
        let (n, used) := firstScalar t
        if isIdentifierPart n then
          let (name, escaped, length, rest) := readWord fuel (t.drop used)
          (ofScalar n ++ name, escaped, length + used, rest)
        else ([], false, 0, t)

def startsWord (t : Text) : Bool :=
  match t with
  | u :: v :: rest =>
    if u == unit '\\' then v == unit 'u' && (unicodeEscape? rest).isSome
    else isIdentifierStart (firstScalar t).1
  | [u] => isIdentifierStart u.toNat
  | [] => false

def stringEscape (t : Text) : Text × Nat :=
  match t with
  | [] => ([], 0)
  | u :: rest =>
    if u == unit 'n' then ([0x0A], 1)
    else if u == unit 't' then ([0x09], 1)
    else if u == unit 'r' then ([0x0D], 1)
    else if u == unit 'b' then ([0x08], 1)
    else if u == unit 'v' then ([0x0B], 1)
    else if u == unit 'f' then ([0x0C], 1)
    else if u == unit '0' && !((rest.head?.map isDigit).getD false) then ([0], 1)
    else if u == unit 'x' && ((rest.take 2).all isHex && (rest.take 2).length = 2) then
      (ofScalar (hexValue (rest.take 2)), 3)
    else if u == unit 'u' then
      match unicodeEscape? rest with
      | some (n, used, _) => (ofScalar n, used + 1)
      | none => ([u], 1)
    else if u == 0x0D then ([], if rest.head? == some 0x0A then 2 else 1)
    else if isLineTerminator u then ([], 1)
    else ([u], 1)

def readString (quote : UInt16) : Nat → Text → Text × Nat × Text
  | 0, t => ([], 0, t)
  | fuel + 1, t =>
    match t with
    | [] => ([], 0, [])
    | u :: rest =>
      if u == quote then ([], 1, rest)
      else if u == 0x0A || u == 0x0D then ([], 0, t)
      else if u == unit '\\' then
        let (part, used) := stringEscape rest
        let (value, length, after) := readString quote fuel (rest.drop used)
        (part ++ value, length + used + 1, after)
      else
        let (value, length, after) := readString quote fuel rest
        (u :: value, length + 1, after)

/- A template's text after its opening delimiter, and whether it ends without a substitution. -/
def readTemplate : Nat → Text → Text × Bool × Nat × Text
  | 0, t => ([], true, 0, t)
  | fuel + 1, t =>
    match t with
    | [] => ([], true, 0, [])
    | u :: rest =>
      if u == unit '`' then ([], true, 1, rest)
      else if u == unit '$' && rest.head? == some (unit '\x7b') then ([], false, 2, rest.drop 1)
      else if u == unit '\\' then
        let (part, used) := stringEscape rest
        let (value, complete, length, after) := readTemplate fuel (rest.drop used)
        (part ++ value, complete, length + used + 1, after)
      else if u == 0x0D then
        let skip := if rest.head? == some 0x0A then 1 else 0
        let (value, complete, length, after) := readTemplate fuel (rest.drop skip)
        (0x0A :: value, complete, length + skip + 1, after)
      else
        let (value, complete, length, after) := readTemplate fuel rest
        (u :: value, complete, length + 1, after)

/- A regular expression after its opening slash; a slash in a class does not end it. -/
def readRegexBody (inClass : Bool) : Nat → Text → Nat × Text
  | 0, t => (0, t)
  | fuel + 1, t =>
    match t with
    | [] => (0, [])
    | u :: rest =>
      if isLineTerminator u then (0, t)
      else if u == unit '\\' then
        let (length, after) := readRegexBody inClass fuel (rest.drop 1)
        (length + 2, after)
      else if u == unit '/' && !inClass then (1, rest)
      else
        let inClass := if u == unit '[' then true else if u == unit ']' then false else inClass
        let (length, after) := readRegexBody inClass fuel rest
        (length + 1, after)

def digitsOf (t : Text) : Text := t.takeWhile fun u => isDigit u || u == unit '_'

def numberLength (t : Text) : Nat :=
  match t with
  | u :: v :: rest =>
    if u == unit '0' && isRadix v then 2 + (rest.takeWhile isWord).length
    else decimalLength t
  | _ => decimalLength t
where
  isRadix (v : UInt16) : Bool := (ofString "xXbBoO").elem v
  decimalLength (t : Text) : Nat :=
    let whole := (digitsOf t).length
    let t := t.drop whole
    let fraction :=
      match t with
      | u :: rest => if u == unit '.' then 1 + (digitsOf rest).length else 0
      | [] => 0
    let t := t.drop fraction
    let exponent :=
      match t with
      | u :: rest =>
        if u == unit 'e' || u == unit 'E' then
          let sign := match rest with | s :: _ => if s == unit '+' || s == unit '-' then 1 else 0 | [] => 0
          let digits := (digitsOf (rest.drop sign)).length
          if digits = 0 then 0 else 1 + sign + digits
        else 0
      | [] => 0
    let t := t.drop exponent
    whole + fraction + exponent + (if t.head? == some (unit 'n') then 1 else 0)

/- Signs are read as long as possible, but for angle brackets, which are joined where an operator is
expected. -/
def signs : List Text :=
  List.map ofString ["=>", "===", "==", "=", "!==", "!=", "!", "...", ".", "??=", "??", "?.", "?", "**=", "**", "*=",
    "*", "++", "+=", "+", "--", "-=", "-", "&&=", "&&", "&=", "&", "||=", "||", "|=", "|", "^=", "^", "~",
    "%=", "%", "/=", "/", "<", ">", "@", "(", ")", "[", "]", "\x7b", "\x7d", ";", ",", ":"]

def readSign (t : Text) : Reading :=
  /- A question mark before a fraction is no optional chain. -/
  let fits (s : Text) : Bool :=
    startsWith t s && !(s == ("?." : Text) && ((t.drop 2).head?.map isDigit).getD false)
  match signs.find? fits with
  | some s => ⟨.punctuator s, s.length, t.drop s.length⟩
  | none => ⟨.unknown, 1, t.drop 1⟩

def readToken (t : Text) : Reading :=
  match t with
  | [] => ⟨.done, 0, []⟩
  | u :: rest =>
    if startsWord t then
      let (name, escaped, length, after) := readWord (t.length + 1) t
      ⟨.word name escaped, length, after⟩
    else if u == unit '#' && startsWord rest then
      let (name, _, length, after) := readWord (t.length + 1) rest
      ⟨.privateName (u :: name), length + 1, after⟩
    else if isDigit u || (u == unit '.' && (rest.head?.map isDigit).getD false) then
      let length := numberLength t
      ⟨.number, length, t.drop length⟩
    else if u == unit '"' || u == unit '\'' then
      let (value, length, after) := readString u (t.length + 1) rest
      ⟨.string value, length + 1, after⟩
    else if u == unit '`' then
      let (value, complete, length, after) := readTemplate (t.length + 1) rest
      ⟨.template value complete, length + 1, after⟩
    else readSign t

/-- Where a parser stands: a token, the text from its start, the text after it, and the end of the
token before. -/
structure Place where
  token : Token
  here : Text
  rest : Text
  lastStop : Nat
  size : Nat

namespace Place

def next (size lastStop pos : Nat) (t : Text) : Place :=
  let (here, skipped, lineBreak) := skipFrom .space 0 false t
  let r := readToken here
  let start := pos + skipped
  ⟨⟨r.kind, start, start + r.length, lineBreak⟩, here, r.rest, lastStop, size⟩

def advance (p : Place) : Place := next p.size p.token.stop p.token.stop p.rest

def reread (p : Place) (r : Reading) : Place :=
  { p with token := { p.token with kind := r.kind, stop := p.token.start + r.length }, rest := r.rest }

/- A line that starts with `#!` is no token. -/
def first (t : Text) : Place :=
  let line := if startsWith t "#!" then t.takeWhile fun u => !isLineTerminator u else []
  next t.length 0 line.length (t.drop line.length)

def asRegex (p : Place) : Place :=
  let t := p.here.drop 1
  let (length, after) := readRegexBody false (t.length + 1) t
  let flags := after.takeWhile isWord
  p.reread ⟨.regex, 1 + length + flags.length, after.drop flags.length⟩

def asTemplatePart (p : Place) : Place :=
  let t := p.here.drop 1
  let (value, complete, length, after) := readTemplate (t.length + 1) t
  p.reread ⟨.template value complete, 1 + length, after⟩

/- Operators that begin with an angle bracket. -/
def angleSigns : List Text :=
  [">>>=", ">>>", ">>=", ">>", ">=", "<<=", "<<", "<="]

def asOperator (p : Place) : Place :=
  match angleSigns.find? (startsWith p.here) with
  | some s => p.reread ⟨.punctuator s, s.length, p.here.drop s.length⟩
  | none => p

def asTagName (p : Place) : Place :=
  match p.token.kind with
  | .word name _ =>
    let more := p.rest.takeWhile fun u => isWord u || u == unit '-' || u == unit '$'
    p.reread ⟨.word (name ++ more) true, (p.token.stop - p.token.start) + more.length, p.rest.drop more.length⟩
  | _ => p

/-- A string in an element's tag, which has no escapes and may break lines. -/
def asAttributeValue (p : Place) : Place :=
  match p.here with
  | u :: rest =>
    if u == unit '"' || u == unit '\'' then
      let value := rest.takeWhile (· != u)
      p.reread ⟨.string value, value.length + 2, rest.drop (value.length + 1)⟩
    else p
  | [] => p

def afterElementText (size pos : Nat) (t : Text) : Place :=
  let skipped := t.takeWhile fun u => u != unit '<' && u != unit '\x7b'
  let here := t.drop skipped.length
  let r := readSign here
  let r := if here.isEmpty then ⟨.done, 0, []⟩ else r
  let start := pos + skipped.length
  ⟨⟨r.kind, start, start + r.length, false⟩, here, r.rest, start, size⟩

end Place
end AnnotationIndex.Script
