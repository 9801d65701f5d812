import AnnotationIndex.Outline.Basic
import AnnotationIndex.Outline.CodeLine
import AnnotationIndex.Outline.UseTree

/-!
Outlines of Rust files: top-level items, the functions of `impl` and `trait` blocks, and `use`
declarations, which are expanded to their leaves. A public `use` exports what it imports.
-/
namespace AnnotationIndex.Rust
open Text

def keywords : List Text :=
  ["if", "while", "for", "match", "return", "loop", "fn", "in", "as", "move", "where", "Some", "Ok",
    "Err", "None"]

section Patterns
open Pattern

def visibility : Pattern :=
  mark 1 (opt ("pub" ++ opt (blanks ++ "(" ++ run (notOneOf ")") ++ ")") ++ blanks1))

def function : Pattern :=
  visibility ++ star (anyOf ["const", "async", "unsafe", "default"] ++ blanks1) ++
    opt ("extern" ++ blanks1 ++ "\"" ++ run (notOneOf "\"") ++ "\"" ++ blanks1) ++
    "fn" ++ blanks1 ++ mark 2 word

def item : Pattern :=
  visibility ++ mark 2 (anyOf ["struct", "enum", "trait", "type", "union"]) ++ blanks1 ++ mark 3 word

def value : Pattern :=
  visibility ++ mark 2 (("const" : Pattern) <|> "static") ++ blanks1 ++ opt (mark 3 ("mut" ++ blanks1)) ++
    mark 4 word ++ blanks ++ ":"

def moduleLine : Pattern := visibility ++ "mod" ++ blanks1 ++ mark 2 word

def typePath : Pattern := plus fun u => isWord u || u == unit ':'

/- Type parameters, as few units as will do. -/
def typeParameters : Pattern := "<" ++ lazyRun (notOneOf "\x7b") ++ ">"

def implLine : Pattern :=
  opt ("unsafe" ++ blanks1) ++ "impl" ++ wordEdge ++ opt (blanks ++ typeParameters) ++ blanks1 ++
    opt (typePath ++ opt typeParameters ++ blanks1 ++ "for" ++ blanks1) ++ mark 1 typePath

def useLine : Pattern := visibility ++ "use" ++ blanks1

def attributeLine : Pattern := "#" ++ opt "!" ++ "["

def forKeyword : Pattern := wordEdge ++ "for" ++ wordEdge

def headerEnd : Pattern := blanks ++ one (oneOf "\x7b;") ++ blanks ++ atEnd

end Patterns

def isAttribute (t : Text) : Bool := attributeLine.starts t

def isPublic (m : Pattern.Match) : Bool := !(m.mark 1).isEmpty

def declaration (above : List CodeLine) (l : CodeLine) (line length : Nat) (name : Text) (kind : SymbolKind)
    (exported : Bool) (container : Option Text) : Declaration :=
  { name, kind, exported, container
    lineSpan := ⟨(line : Int) - CodeLine.leading isAttribute (above.map (·.source)), line + length⟩
    signature := some ((headerEnd.remove (trim l.source)).take Outline.signatureLimit) }

/- Functions one brace inside a block, of which `left` lines are still to come before the last one. -/
def membersFrom (container : Option Text) (depth : Nat) (allPublic : Bool) (above : List CodeLine)
    (line left : Nat) (ls : List CodeLine) : List Declaration :=
  match ls, left with
  | [], _ => []
  | _, 0 => []
  | l :: rest, left + 1 =>
    let found := if l.before.braces ≠ depth then none else function.start (trim l.code)
    match found with
    | none => membersFrom container depth allPublic (l :: above) (line + 1) left rest
    | some m =>
      let n := CodeLine.blockLength (l :: rest)
      declaration above l line n (m.mark 2) .method (allPublic || isPublic m) container ::
        membersFrom container depth allPublic ((rest.take n).reverse ++ l :: above) (line + n + 1)
          (left - n) (rest.drop n)
  termination_by ls.length
  decreasing_by all_goals (simp only [List.length_cons, List.length_drop]; omega)

def members (container : Text) (allPublic : Bool) (above : List CodeLine) (l : CodeLine)
    (rest : List CodeLine) (line : Nat) : List Declaration :=
  membersFrom (if container.isEmpty then none else some container) (l.before.braces + 1) allPublic
    (l :: above) (line + 1) (CodeLine.blockLength (l :: rest) - 1) rest

def itemKind (keyword : Text) : SymbolKind :=
  if keyword == ("struct" : Text) || keyword == ("union" : Text) then .struct
  else if keyword == ("enum" : Text) then .enum
  else if keyword == ("trait" : Text) then .trait
  else .type

def lastSegment (t : Text) : Text := (splitText "::" t).getLast?.getD []

def declared? (above : List CodeLine) (l : CodeLine) (rest : List CodeLine) (line : Nat) :
    Option (List Declaration) :=
  let t := trim l.code
  let n := CodeLine.blockLength (l :: rest)
  if t.isEmpty || isAttribute t then none
  else
    match implLine.start t with
    | some m =>
      let forTrait := forKeyword.occursIn (t.takeWhile (· != unit '\x7b'))
      some (members (lastSegment (m.mark 1)) forTrait above l rest line)
    | none =>
      match function.start t with
      | some m => some [declaration above l line n (m.mark 2) .function (isPublic m) none]
      | none =>
        match item.start t with
        | some m =>
          let name := m.mark 3
          let d := declaration above l line n name (itemKind (m.mark 2)) (isPublic m) none
          some (if d.kind = .trait then d :: members name (isPublic m) above l rest line else [d])
        | none =>
          match value.start t with
          | some m =>
            let kind := if m.mark 2 == ("const" : Text) || (m.mark? 3).isNone then SymbolKind.const else .variable
            some [declaration above l line n (m.mark 4) kind (isPublic m) none]
          | none =>
            (moduleLine.start t).map fun m =>
              [declaration above l line n (m.mark 2) .module (isPublic m) none]

def declarationsFrom (above : List CodeLine) (line : Nat) (ls : List CodeLine) : List Declaration :=
  match ls with
  | [] => []
  | l :: rest =>
    let found := if l.before.braces ≠ 0 then none else declared? above l rest line
    match found with
    | none => declarationsFrom (l :: above) (line + 1) rest
    | some ds =>
      let n := CodeLine.blockLength (l :: rest)
      ds ++ declarationsFrom ((rest.take n).reverse ++ l :: above) (line + n + 1) (rest.drop n)
  termination_by ls.length
  decreasing_by all_goals (simp only [List.length_cons, List.length_drop]; omega)

structure Uses where
  imports : List ImportStatement
  exports : List ExportRow

/- A name is added to the statement that the same declaration already has for its specifier. -/
def addName (line : Nat) (specifier : Text) (n : ImportedName) (imports : List ImportStatement) :
    List ImportStatement :=
  let isSame (s : ImportStatement) := s.specifier == specifier && s.namespaceAlias.isNone && !s.wildcard
  if imports.any isSame then
    imports.map fun s => if isSame s then { s with names := s.names ++ [n] } else s
  else imports ++ [.ofNames specifier line [n]]

def addLeaf (line : Nat) (isPublic : Bool) (u : Uses) (leaf : UseLeaf) : Uses :=
  if leaf.glob then
    let specifier := join "::" leaf.path
    { imports := u.imports ++ [.ofWildcard specifier line]
      exports := u.exports ++ if isPublic then [ExportRow.star "*" specifier] else [] }
  else
    let last := leaf.path.getLast?.getD []
    if last == ("self" : Text) || leaf.path.length = 1 then
      let modulePath := if last == ("self" : Text) then leaf.path.dropLast else leaf.path
      let name := leaf.alias.getD (modulePath.getLast?.getD [])
      { u with imports := u.imports ++ [.ofAlias (join "::" modulePath) line name] }
    else
      let specifier := join "::" leaf.path.dropLast
      let binding := leaf.alias.getD last
      { imports := addName line specifier ⟨last, binding⟩ u.imports
        exports := u.exports ++
          if isPublic && binding != ("_" : Text) then [ExportRow.again binding specifier last] else [] }

/- A statement goes on until a line has a semicolon: its text, and the lines taken below the first. -/
def statementFrom (t : Text) : List CodeLine → Text × Nat
  | [] => (t, 0)
  | l :: rest =>
    if t.elem (unit ';') then (t, 0)
    else
      let (all, n) := statementFrom (t ++ (0x20 :: trim l.code)) rest
      (all, n + 1)

def usesFrom (line : Nat) (ls : List CodeLine) : List Uses :=
  match ls with
  | [] => []
  | l :: rest =>
    let t := trim l.code
    match useLine.start t with
    | none => usesFrom (line + 1) rest
    | some m =>
      let (statement, n) := statementFrom t rest
      let tree := (statement.takeWhile (· != unit ';')).drop m.text.length
      (UseTree.leaves (trim tree)).foldl (addLeaf line (isPublic m)) ⟨[], []⟩ ::
        usesFrom (line + n + 1) (rest.drop n)
  termination_by ls.length
  decreasing_by all_goals (simp only [List.length_cons, List.length_drop]; omega)

def receiverCall (callee : Text) : Text :=
  if startsWith callee "Self." then "self." ++ callee.drop 5 else callee

def calls (ls : List CodeLine) : List CallSite :=
  ls.zipIdx.flatMap fun (l, i) =>
    let t := trim l.code
    if function.starts t || useLine.starts t || isAttribute t then []
    else (callees keywords l.code).map fun c => ⟨receiverCall c, i + 1⟩

def outline (text : Text) : Outline :=
  let sources := Text.lines text
  let ls := CodeLine.index sources (Mask.code ⟨false, true, false⟩ sources)
  let declarations := declarationsFrom [] 1 ls
  let uses := usesFrom 1 ls
  let own := (declarations.filter fun d => d.exported && d.kind ≠ .method).map fun d =>
    ExportRow.own d.name d.name
  { lineCount := sources.length, declarations, imports := uses.flatMap (·.imports)
    exports := own ++ uses.flatMap (·.exports), calls := calls ls }

end AnnotationIndex.Rust
