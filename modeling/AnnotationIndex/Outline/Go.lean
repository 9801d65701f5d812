import AnnotationIndex.Outline.Basic
import AnnotationIndex.Outline.CodeLine

/-!
Outlines of Go files: top-level functions, methods, types and values, and the members of grouped
declarations. What is exported starts with an upper-case letter.
-/
namespace AnnotationIndex.Go
open Text

def keywords : List Text :=
  ["func", "if", "for", "switch", "return", "go", "defer", "select", "case", "range", "make", "new",
    "len", "cap", "append", "panic", "recover", "copy", "delete", "close", "print", "println", "map",
    "chan", "interface", "struct"]

section Patterns
open Pattern

def typeParameters : Pattern := opt ("[" ++ run (notOneOf "]") ++ "]")
def opening : Pattern := one (oneOf "[(")

def method : Pattern :=
  "func" ++ blanks ++ "(" ++ blanks ++ opt (word ++ blanks1) ++ opt "*" ++ blanks ++ mark 1 word ++
    typeParameters ++ blanks ++ ")" ++ blanks ++ mark 2 word ++ blanks ++ opening

def function : Pattern := "func" ++ blanks1 ++ mark 1 word ++ blanks ++ opening

def structural : Pattern := mark 2 (("struct" : Pattern) <|> "interface")

def typeLine : Pattern :=
  "type" ++ blanks1 ++ mark 1 word ++ typeParameters ++ blanks1 ++ opt structural

def value : Pattern := mark 1 (("const" : Pattern) <|> "var") ++ blanks1 ++ mark 2 word

def group : Pattern :=
  mark 1 (("const" : Pattern) <|> "var" <|> "type") ++ blanks ++ "(" ++ blanks ++ atEnd

def member : Pattern := mark 1 name ++ wordEdge ++ opt (blanks1 ++ structural)

def importSpec : Pattern :=
  opt (mark 1 (word <|> ".") ++ blanks1) ++ "\"" ++ mark 2 (plus (notOneOf "\"")) ++ "\""

def singleImport : Pattern := "import" ++ blanks1 ++ mark 1 (one (!isLineTerminator ·) ++ rest) ++ atEnd
def groupedImport : Pattern := "import" ++ blanks ++ "("
def importGroup : Pattern := "import" ++ blanks ++ "(" ++ blanks ++ atEnd

def notCalls : Pattern := blanks ++ (("func" : Pattern) <|> "import") ++ wordEdge

def headerEnd : Pattern := blanks ++ one (oneOf "\x7b(") ++ blanks ++ atEnd

end Patterns

def startsUpper (n : Text) : Bool := (n.head?.map isUpper).getD false

def typeKind (keyword : Option Text) : SymbolKind :=
  if keyword == some "struct" then .struct
  else if keyword == some "interface" then .interface
  else .type

def valueKind (keyword : Text) : SymbolKind := if keyword == ("const" : Text) then .const else .variable

def declaration (l : CodeLine) (line length : Nat) (name : Text) (kind : SymbolKind)
    (container : Option Text) : Declaration :=
  { name, kind, container
    lineSpan := ⟨line, line + length⟩
    exported := startsUpper name
    signature := some ((headerEnd.remove (trim l.source)).take Outline.signatureLimit) }

/- Members of a group, of which `left` lines are still to come before the closing one. A member ends
within the group. -/
def membersFrom (keyword : Text) (line left : Nat) (ls : List CodeLine) : List Declaration :=
  match ls, left with
  | [], _ => []
  | _, 0 => []
  | l :: rest, left + 1 =>
    let found :=
      if l.before.braces ≠ 0 || l.before.brackets ≠ 1 then none else member.start (trim l.code)
    match found with
    | none => membersFrom keyword (line + 1) left rest
    | some m =>
      let n := min (CodeLine.blockLength (l :: rest)) left
      let kind := if keyword == ("type" : Text) then typeKind (m.mark? 2) else valueKind keyword
      declaration l line n (m.mark 1) kind none ::
        membersFrom keyword (line + n + 1) (left - n) (rest.drop n)
  termination_by ls.length
  decreasing_by all_goals (simp only [List.length_cons, List.length_drop]; omega)

def declared? (l : CodeLine) (rest : List CodeLine) (line : Nat) : Option (List Declaration) :=
  let t := trim l.code
  let n := CodeLine.blockLength (l :: rest)
  match method.start t with
  | some m => some [declaration l line n (m.mark 2) .method (some (m.mark 1))]
  | none =>
    match function.start t with
    | some m => some [declaration l line n (m.mark 1) .function none]
    | none =>
      match group.start t with
      | some m => some (membersFrom (m.mark 1) (line + 1) (n - 1) rest)
      | none =>
        match typeLine.start t with
        | some m => some [declaration l line n (m.mark 1) (typeKind (m.mark? 2)) none]
        | none =>
          (value.start t).map fun m => [declaration l line n (m.mark 2) (valueKind (m.mark 1)) none]

def declarationsFrom (line : Nat) (ls : List CodeLine) : List Declaration :=
  match ls with
  | [] => []
  | l :: rest =>
    let found :=
      if l.before.braces ≠ 0 || l.before.brackets ≠ 0 then none else declared? l rest line
    match found with
    | none => declarationsFrom (line + 1) rest
    | some ds =>
      let n := CodeLine.blockLength (l :: rest)
      ds ++ declarationsFrom (line + n + 1) (rest.drop n)
  termination_by ls.length
  decreasing_by all_goals (simp only [List.length_cons, List.length_drop]; omega)

/- A dot import merges the package's scope; a blank import binds nothing. -/
def importStatement (line : Nat) (m : Pattern.Match) : ImportStatement :=
  let specifier := m.mark 2
  match m.mark? 1 with
  | some name =>
    if name == ("." : Text) then .ofWildcard specifier line
    else if name == ("_" : Text) then .ofNames specifier line []
    else .ofAlias specifier line name
  | none => .ofAlias specifier line (afterLast (unit '/') specifier)

/- The lines of an import group up to the one that closes it, and how many they are. -/
def importGroupFrom (line : Nat) : List CodeLine → List ImportStatement × Nat
  | [] => ([], 0)
  | l :: rest =>
    let t := trim l.source
    if startsWith t ")" then ([], 0)
    else
      let (more, n) := importGroupFrom (line + 1) rest
      (((importSpec.start t).map (importStatement line)).toList ++ more, n + 1)

def importsFrom (line : Nat) (ls : List CodeLine) : List ImportStatement :=
  match ls with
  | [] => []
  | l :: rest =>
    let t := trim l.source
    if l.before.braces ≠ 0 then importsFrom (line + 1) rest
    else
      match (if groupedImport.starts t then none else singleImport.start t) with
      | some m =>
        ((importSpec.start (trim (m.mark 1))).map (importStatement line)).toList ++ importsFrom (line + 1) rest
      | none =>
        if importGroup.starts t then
          let (found, n) := importGroupFrom (line + 1) rest
          found ++ importsFrom (line + n + 2) (rest.drop (n + 1))
        else importsFrom (line + 1) rest
  termination_by ls.length
  decreasing_by all_goals (simp only [List.length_cons, List.length_drop]; omega)

def calls (ls : List CodeLine) : List CallSite :=
  ls.zipIdx.flatMap fun (l, i) =>
    if l.before.braces = 0 && notCalls.starts l.code then []
    else (callees keywords l.code).map fun c => ⟨c, i + 1⟩

def outline (text : Text) : Outline :=
  let sources := Text.lines text
  let ls := CodeLine.index sources (Mask.code ⟨true, true, false⟩ sources)
  let declarations := declarationsFrom 1 ls
  { lineCount := sources.length, declarations, imports := importsFrom 1 ls
    exports := (declarations.filter fun d => d.exported && d.kind ≠ .method).map fun d => .own d.name d.name
    calls := calls ls }

end AnnotationIndex.Go
