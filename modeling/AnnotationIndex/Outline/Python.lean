import AnnotationIndex.Outline.Basic
import AnnotationIndex.Outline.CodeLine
import AnnotationIndex.Path

/-!
Outlines of Python files, line by line over masked code. A block extends to the last line that is
indented deeper than its header.
-/
namespace AnnotationIndex.Python
open Text

def keywords : List Text :=
  ["if", "elif", "while", "for", "with", "assert", "except", "return", "yield", "del", "not", "and",
    "or", "in", "is", "lambda", "await", "raise", "print"]

structure Line where
  source : Text
  code : Text

inductive ScopeKind where
  | «class»
  | function
  deriving DecidableEq

structure Scope where
  kind : ScopeKind
  name : Text
  indent : Nat

section Patterns
open Pattern

def defHeader : Pattern :=
  blanks ++ opt ("async" ++ blanks1) ++ "def" ++ blanks1 ++ mark 1 word ++ blanks ++ "("

def classHeader : Pattern := blanks ++ "class" ++ blanks1 ++ mark 1 word

def assignment : Pattern :=
  mark 1 name ++ blanks ++ opt (":" ++ blanks ++ plus (notOneOf "=")) ++ "=" ++ notAhead "="

def importLine : Pattern := "import" ++ blanks1 ++ mark 1 (one (!isLineTerminator ·) ++ rest) ++ atEnd

def fromLine : Pattern :=
  let dot := opt "."
  "from" ++ blanks1 ++ mark 1 (dot ++ dot ++ dot ++ run fun u => isWord u || u == unit '.') ++
    blanks1 ++ "import" ++ blanks1 ++ mark 2 (one (!isLineTerminator ·) ++ rest) ++ atEnd

def asKeyword : Pattern := blanks1 ++ "as" ++ blanks1

def exportList : Pattern := "__all__" ++ blanks ++ opt (":" ++ plus (notOneOf "=")) ++ "="

def quotedName : Pattern :=
  let quote := one (oneOf "\"'")
  quote ++ mark 1 name ++ quote

def declares : Pattern :=
  (opt ("async" ++ blanks1) ++ "def" ++ one isBlank) <|> ("class" ++ one isBlank) <|>
    ("import" ++ one isBlank) <|> ("from" ++ one isBlank)

def headerColon : Pattern := ":" ++ blanks ++ opt ("#" ++ rest) ++ atEnd

end Patterns

def isDunder (n : Text) : Bool :=
  startsWith n "__" && endsWith n "__" && 5 ≤ n.length && n.all isWord

def isConstantName (n : Text) : Bool :=
  match n with
  | [] => false
  | u :: rest => isUpper u && rest.all fun v => isUpper v || isDigit v || v == unit '_'

def isPrivate (n : Text) : Bool := startsWith n "_"

/- Brackets of all kinds; one that closes nothing is ignored. -/
def bracketStep (depth : Nat) (u : UInt16) : Nat :=
  if Pattern.oneOf "([\x7b" u then depth + 1 else if Pattern.oneOf ")]\x7d" u then depth - 1 else depth

/- How many lines below the current one the brackets are closed and no backslash goes on. -/
def closeFrom (depth : Nat) : List Line → Option Nat
  | [] => none
  | l :: rest =>
    let depth := l.code.foldl bracketStep depth
    if depth = 0 && !endsWith (trimEnd l.code) "\\" then some 0 else (closeFrom depth rest).map (· + 1)

/-- The lines below its first that a header or statement takes; none if it is never closed. -/
def headerLength (ls : List Line) : Nat := (closeFrom 0 ls).getD 0

/- The last line, counted from the header's end, before one that is indented no deeper. -/
def bodyFrom (indent : Nat) : (at_ last : Nat) → List Line → Nat
  | _, last, [] => last
  | n, last, l :: rest =>
    if (trim l.code).isEmpty then bodyFrom indent (n + 1) last rest
    else if indentWidth l.code ≤ indent then last
    else bodyFrom indent (n + 1) (n + 1) rest

def bodyLength (indent : Nat) (below : List Line) : Nat := bodyFrom indent 0 0 below

def signatureOf (header : List Line) : Text :=
  let text := trim (collapseBlanks (join " " (header.map (·.source))))
  (headerColon.remove text).take Outline.signatureLimit

def isDecorator (t : Text) : Bool := startsWith t "@"

def blockDeclaration (above : List Line) (ls : List Line) (line : Nat) (indent : Nat)
    (name : Text) (kind : SymbolKind) (exported : Bool) (container : Option Text) : Declaration :=
  let n := headerLength ls
  { name, kind, exported, container
    lineSpan := ⟨(line : Int) - CodeLine.leading isDecorator (above.map (·.source)),
      line + n + bodyLength indent (ls.drop (n + 1))⟩
    signature := some (signatureOf (ls.take (n + 1))) }

def openScopes (scopes : List Scope) (indent : Nat) : List Scope :=
  scopes.dropWhile fun s => indent ≤ s.indent

/-- What a line declares: a declaration to list, a scope to open, and how many lines they take. -/
structure Step where
  declaration : Option Declaration
  scope : Option Scope
  length : Nat

def step (above ls : List Line) (line : Nat) (scopes : List Scope) : Step :=
  match ls with
  | [] => ⟨none, none, 0⟩
  | l :: _ =>
    let indent := indentWidth l.code
    match defHeader.start l.code with
    | some m =>
      let name := m.mark 1
      let listed :=
        match scopes with
        | [] => some (blockDeclaration above ls line indent name .function true none)
        | [s] =>
          if s.kind = .class then
            some (blockDeclaration above ls line indent name .method (!isPrivate name || isDunder name) (some s.name))
          else none
        | _ => none
      ⟨listed, some ⟨.function, name, indent⟩, headerLength ls⟩
    | none =>
      match classHeader.start l.code with
      | some m =>
        let name := m.mark 1
        ⟨if scopes.isEmpty then some (blockDeclaration above ls line indent name .class true none) else none,
          some ⟨.class, name, indent⟩, headerLength ls⟩
      | none =>
        if indent ≠ 0 then ⟨none, none, 0⟩
        else
          match assignment.start l.code with
          | none => ⟨none, none, 0⟩
          | some m =>
            let name := m.mark 1
            if isDunder name then ⟨none, none, 0⟩
            else
              let n := headerLength ls
              ⟨some
                { name, kind := if isConstantName name then .const else .variable
                  lineSpan := ⟨line, line + n⟩, exported := true, container := none
                  signature := some ((trim l.source).take Outline.signatureLimit) },
                none, n⟩

def declarationsFrom (above : List Line) (line : Nat) (scopes : List Scope) (ls : List Line) :
    List Declaration :=
  match ls with
  | [] => []
  | l :: rest =>
    if (trim l.code).isEmpty then declarationsFrom (l :: above) (line + 1) scopes rest
    else
      let scopes := openScopes scopes (indentWidth l.code)
      let s := step above (l :: rest) line scopes
      s.declaration.toList ++
        declarationsFrom ((rest.take s.length).reverse ++ l :: above) (line + s.length + 1)
          (s.scope.toList ++ scopes) (rest.drop s.length)
  termination_by ls.length
  decreasing_by all_goals (simp only [List.length_cons, List.length_drop]; omega)

def splitAs (t : Text) : Text × Option Text :=
  match asKeyword.find (trim t) with
  | none => (trim t, none)
  | some m =>
    match asKeyword.find m.after with
    | none => (m.before, some m.after)
    | some k => (m.before, some k.before)

/- The names of a `from` import whose bracket is closed in a later line: the text, and the lines taken. -/
def bracketedNames (names : Text) : List Line → Text × Nat
  | [] => (names, 0)
  | l :: rest =>
    let names := names ++ (0x20 :: trim l.code)
    if l.code.elem (unit ')') then (names, 1)
    else
      let (all, n) := bracketedNames names rest
      (all, n + 1)

/- The names of a `from` import that a backslash carries on. -/
def continuedNames (names : Text) : List Line → Text × Nat
  | [] => (names, 0)
  | l :: rest =>
    if endsWith names "\\" then
      let (all, n) := continuedNames (names.dropLast ++ (0x20 :: trim l.code)) rest
      (all, n + 1)
    else (names, 0)

def plainImports (line : Nat) (t : Text) : List ImportStatement :=
  (splitOn (unit ',') t).filterMap fun part =>
    let (moduleName, newName) := splitAs part
    if moduleName.isEmpty then none else some (.ofAlias moduleName line (newName.getD moduleName))

def namesImport (specifier : Text) (line : Nat) (t : Text) : ImportStatement :=
  let names := trim (t.filter fun u => u != unit '(' && u != unit ')')
  if names == ("*" : Text) then .ofWildcard specifier line
  else
    .ofNames specifier line ((splitOn (unit ',') names).filterMap fun part =>
      let (name, newName) := splitAs part
      if name.isEmpty then none else some ⟨name, newName.getD name⟩)

def importsFrom (line : Nat) (ls : List Line) : List ImportStatement :=
  match ls with
  | [] => []
  | l :: rest =>
    let t := trim l.code
    match importLine.start t with
    | some m => plainImports line (m.mark 1) ++ importsFrom (line + 1) rest
    | none =>
      match fromLine.start t with
      | none => importsFrom (line + 1) rest
      | some m =>
        let names := trim (m.mark 2)
        let (names, n) :=
          if startsWith names "(" && !names.elem (unit ')') then bracketedNames names rest
          else continuedNames names rest
        namesImport (m.mark 1) line names :: importsFrom (line + n + 1) (rest.drop n)
  termination_by ls.length
  decreasing_by all_goals (simp only [List.length_cons, List.length_drop]; omega)

def listedExports : List Line → Option (List Text)
  | [] => none
  | l :: rest =>
    if exportList.starts l.code then
      let source := join " " (((l :: rest).take (headerLength (l :: rest) + 1)).map (·.source))
      some ((quotedName.all source).map (·.mark 1))
    else listedExports rest

/-- Top-level declarations are exported if they are listed, or without a list if they are not private. -/
def withExports (listed : Option (List Text)) (d : Declaration) : Declaration :=
  if d.kind = .method then d
  else { d with exported := match listed with | some ns => ns.elem d.name | none => !isPrivate d.name }

/- Imported names are part of the interface where the list has them, or in a package file without one. -/
def exportTable (declarations : List Declaration) (imports : List ImportStatement)
    (listed : Option (List Text)) (isPackage : Bool) : List ExportRow :=
  let own := (declarations.filter fun d => d.kind ≠ .method && d.exported).map (·.name)
  let visible (n : Text) :=
    match listed with
    | some ns => ns.elem n
    | none => isPackage && !isPrivate n
  own.map (fun n => ExportRow.own n n) ++
    imports.flatMap fun s =>
      if s.wildcard && isPackage && listed.isNone then [ExportRow.star "*" s.specifier]
      else
        s.names.filterMap fun n =>
          if own.elem n.binding || !visible n.binding then none
          else some (ExportRow.again n.binding s.specifier n.name)

def calls (ls : List Line) : List CallSite :=
  ls.zipIdx.flatMap fun (l, i) =>
    if declares.starts (trim l.code) then []
    else (callees keywords l.code).map fun c => ⟨c, i + 1⟩

def outline (path text : Text) : Outline :=
  let sources := Text.lines text
  let ls := (sources.zip (Mask.indented sources)).map fun (source, code) => Line.mk source code
  let listed := listedExports ls
  let declarations := (declarationsFrom [] 1 [] ls).map (withExports listed)
  let imports := importsFrom 1 ls
  { lineCount := sources.length, declarations, imports
    exports := exportTable declarations imports listed (Path.baseName path == ("__init__.py" : Text))
    calls := calls ls }

end AnnotationIndex.Python
