import AnnotationIndex.Text.Blank

/-!
Backtracking patterns over code units. A pattern is tried from a cursor; alternatives are tried from
the left, a run takes as many units as it can and gives them back one by one, and the first way to
succeed is the match. Marks record what a marked part matched.

Every loop is bounded by the text: a run recurses on the units it passes, and a repetition only goes
on while its body has moved the cursor.
-/
namespace AnnotationIndex
open Text

inductive Pattern where
  | empty
  | one (p : UInt16 → Bool)
  | run (p : UInt16 → Bool)
  | lazyRun (p : UInt16 → Bool)
  | seq (a b : Pattern)
  | alt (a b : Pattern)
  | star (a : Pattern)
  | mark (n : Nat) (a : Pattern)
  | ahead (a : Pattern)
  | notAhead (a : Pattern)
  | notAfter (p : UInt16 → Bool)
  | atStart
  | atEnd
  | wordEdge

namespace Pattern

/-- A place in a text: the units before it, nearest first, and the units after it. -/
structure Cursor where
  before : Text
  rest : Text

abbrev Marks := List (Nat × Text)
abbrev Found := Option (Cursor × Marks)

def runFrom (p : UInt16 → Bool) (k : Cursor → Found) : (before rest : Text) → Found
  | before, [] => k ⟨before, []⟩
  | before, u :: rest =>
    if p u then (runFrom p k (u :: before) rest).orElse fun _ => k ⟨before, u :: rest⟩
    else k ⟨before, u :: rest⟩

def lazyRunFrom (p : UInt16 → Bool) (k : Cursor → Found) : (before rest : Text) → Found
  | before, [] => k ⟨before, []⟩
  | before, u :: rest =>
    (k ⟨before, u :: rest⟩).orElse fun _ =>
      if p u then lazyRunFrom p k (u :: before) rest else none

/-- Repeats `body` while it moves the cursor, at most `n` times, and then fewer times. -/
def starFrom (body : Cursor → Marks → (Cursor → Marks → Found) → Found)
    (k : Cursor → Marks → Found) : Nat → Cursor → Marks → Found
  | 0, c, m => k c m
  | n + 1, c, m =>
    (body c m fun c' m' =>
      if c'.rest.length < c.rest.length then starFrom body k n c' m' else none).orElse
    fun _ => k c m

def isEdge (c : Cursor) : Bool :=
  (match c.before with | [] => false | u :: _ => isWord u) !=
  (match c.rest with | [] => false | u :: _ => isWord u)

def matchFrom : Pattern → Cursor → Marks → (Cursor → Marks → Found) → Found
  | empty, c, m, k => k c m
  | one p, c, m, k =>
    match c.rest with
    | [] => none
    | u :: rest => if p u then k ⟨u :: c.before, rest⟩ m else none
  | run p, c, m, k => runFrom p (fun c => k c m) c.before c.rest
  | lazyRun p, c, m, k => lazyRunFrom p (fun c => k c m) c.before c.rest
  | seq a b, c, m, k => matchFrom a c m fun c m => matchFrom b c m k
  | alt a b, c, m, k => (matchFrom a c m k).orElse fun _ => matchFrom b c m k
  | star a, c, m, k => starFrom (fun c m k => matchFrom a c m k) k c.rest.length c m
  | mark n a, c, m, k =>
    matchFrom a c m fun c' m' => k c' ((n, c.rest.take (c.rest.length - c'.rest.length)) :: m')
  | ahead a, c, m, k =>
    match matchFrom a c m fun c m => some (c, m) with
    | some (_, m') => k c m'
    | none => none
  | notAhead a, c, m, k =>
    match matchFrom a c m fun c m => some (c, m) with
    | some _ => none
    | none => k c m
  | notAfter p, c, m, k =>
    match c.before with
    | [] => k c m
    | u :: _ => if p u then none else k c m
  | atStart, c, m, k => if c.before.isEmpty then k c m else none
  | atEnd, c, m, k => if c.rest.isEmpty then k c m else none
  | wordEdge, c, m, k => if isEdge c then k c m else none

instance : Append Pattern := ⟨seq⟩
instance : OrElse Pattern := ⟨fun a b => alt a (b ())⟩

def lit (t : Text) : Pattern := t.foldr (fun u p => seq (one (· == u)) p) empty

instance : Coe String Pattern := ⟨fun s => lit (ofString s)⟩

def opt (a : Pattern) : Pattern := alt a empty
def plus (p : UInt16 → Bool) : Pattern := seq (one p) (run p)
def anyOf (ps : List Pattern) : Pattern :=
  match ps with
  | [] => notAhead empty
  | p :: ps => ps.foldl alt p

def oneOf (s : String) : UInt16 → Bool := fun u => (ofString s).elem u
def notOneOf (s : String) : UInt16 → Bool := fun u => !(ofString s).elem u

def word : Pattern := plus isWord
def name : Pattern := seq (one isWordStart) (run isWord)
def blanks : Pattern := run isBlank
def blanks1 : Pattern := plus isBlank
def rest : Pattern := run fun u => !isLineTerminator u

structure Match where
  before : Text
  text : Text
  after : Text
  marks : Marks

/-- The marked part of that number; the last one recorded counts. -/
def Match.mark? (m : Match) (n : Nat) : Option Text := m.marks.lookup n
def Match.mark (m : Match) (n : Nat) : Text := (m.mark? n).getD []

def matchAt (p : Pattern) (before rest : Text) : Option Match :=
  (p.matchFrom ⟨before, rest⟩ [] fun c m => some (c, m)).map fun (c, m) =>
    { before := before.reverse, text := rest.take (rest.length - c.rest.length), after := c.rest, marks := m }

def findFrom (p : Pattern) : (before rest : Text) → Option Match
  | before, [] => p.matchAt before []
  | before, u :: rest => (p.matchAt before (u :: rest)).orElse fun _ => findFrom p (u :: before) rest

def find (p : Pattern) (t : Text) : Option Match := findFrom p [] t

def start (p : Pattern) (t : Text) : Option Match := p.matchAt [] t

def occursIn (p : Pattern) (t : Text) : Bool := (p.find t).isSome
def starts (p : Pattern) (t : Text) : Bool := (p.start t).isSome

/- `skip` counts the units of the last match still to be passed over. -/
def allFrom (p : Pattern) : (skip : Nat) → (before rest : Text) → List Match
  | 0, before, [] => (p.matchAt before []).toList
  | _ + 1, _, [] => []
  | skip + 1, before, u :: rest => allFrom p skip (u :: before) rest
  | 0, before, u :: rest =>
    match p.matchAt before (u :: rest) with
    | some m => m :: allFrom p (m.text.length - 1) (u :: before) rest
    | none => allFrom p 0 (u :: before) rest

def all (p : Pattern) (t : Text) : List Match := allFrom p 0 [] t

def remove (p : Pattern) (t : Text) : Text :=
  match p.find t with
  | some m => m.before ++ m.after
  | none => t

end Pattern
end AnnotationIndex
