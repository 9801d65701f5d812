import AnnotationIndex.Outline.Basic
import AnnotationIndex.Outline.CodeLine

/-!
Outlines of Java files: top-level types with their constructors, methods and constants. A declaration
starts at the annotations above it; those on its own line are passed over.
-/
namespace AnnotationIndex.Java
open Text

def keywords : List Text :=
  ["if", "for", "while", "switch", "catch", "return", "new", "throw", "synchronized", "super", "this",
    "try", "assert", "else", "do"]

section Patterns
open Pattern

def modifiers : Pattern :=
  mark 1 (star (anyOf ["public", "protected", "private", "static", "final", "abstract", "sealed",
    "non-sealed", "strictfp", "default", "synchronized", "native", "transient", "volatile"] ++ blanks1))

def typeLine : Pattern :=
  modifiers ++ mark 2 (anyOf ["class", "interface", "enum", "record", "@interface"]) ++ blanks1 ++
    mark 3 word

def typeParameters : Pattern := opt ("<" ++ plus (notOneOf ">") ++ ">" ++ blanks1)

def method : Pattern :=
  modifiers ++ typeParameters ++
    mark 2 (plus (fun u => isWord u || oneOf ".$" u) ++ opt ("<" ++ run (notOneOf "()") ++ ">") ++ star "[]") ++
    blanks1 ++ mark 3 word ++ blanks ++ "("

def construct : Pattern := modifiers ++ typeParameters ++ mark 2 word ++ blanks ++ "("

def constantName : Pattern := one isUpper ++ run fun u => isUpper u || isDigit u || u == unit '_'

/- The type is read with as few units as will do. -/
def field : Pattern :=
  let typeUnit (u : UInt16) := isWord u || isBlank u || oneOf ".$<>,[]" u
  modifiers ++ one typeUnit ++ lazyRun typeUnit ++ blanks1 ++ mark 2 constantName ++ blanks ++
    one (oneOf "=;")

def importLine : Pattern :=
  let pathUnit (u : UInt16) := isWord u || u == unit '.'
  "import" ++ blanks1 ++ opt (mark 1 ("static" ++ blanks1)) ++ mark 2 (one pathUnit ++ lazyRun pathUnit) ++
    opt (mark 3 ".*") ++ blanks ++ ";"

def annotationName : Pattern :=
  "@" ++ notAhead ("interface" ++ wordEdge) ++ plus fun u => isWord u || u == unit '.'

def annotationLine : Pattern := annotationName ++ opt ("(" ++ rest ++ ")") ++ atEnd

def annotationsBefore : Pattern :=
  let annotated := annotationName ++ opt ("(" ++ run (notOneOf ")") ++ ")") ++ blanks1
  annotated ++ star annotated

def headerEnd : Pattern := blanks ++ one (oneOf "\x7b;") ++ blanks ++ atEnd

def wholeWord (s : String) : Pattern := wordEdge ++ lit s ++ wordEdge

def packageOrImport : Pattern := (("package" : Pattern) <|> "import") ++ one isBlank

def statementStart : Pattern := anyOf ["return", "throw", "new", "else", "yield", "case"] ++ wordEdge

def constructorEnd : Pattern :=
  ")" ++ blanks ++
    opt ("throws" ++ blanks1 ++ plus fun u => isWord u || isBlank u || oneOf ".," u) ++
    "\x7b" ++ blanks ++ atEnd

end Patterns

def dropAnnotations (t : Text) : Text :=
  match annotationsBefore.start t with
  | some m => m.after
  | none => t

def isPublic (modifiers : Text) (inInterface : Bool) : Bool :=
  (wholeWord "public").occursIn modifiers || (inInterface && !(wholeWord "private").occursIn modifiers)

def declaration (above : List CodeLine) (l : CodeLine) (line length : Nat) (name : Text) (kind : SymbolKind)
    (exported : Bool) (container : Option Text) : Declaration :=
  { name, kind, exported, container
    lineSpan := ⟨(line : Int) - CodeLine.leading annotationLine.starts (above.map (·.source)), line + length⟩
    signature := some ((headerEnd.remove (dropAnnotations (trim l.source))).take Outline.signatureLimit) }

def member? (container : Text) (inInterface : Bool) (above : List CodeLine) (l : CodeLine)
    (rest : List CodeLine) (line : Nat) : Option Declaration :=
  let t := dropAnnotations (trim l.code)
  let n := CodeLine.blockLength (l :: rest)
  let make (name : Text) (kind : SymbolKind) (modifiers : Text) :=
    declaration above l line n name kind (isPublic modifiers inInterface) (some container)
  if t.isEmpty || annotationLine.starts t then none
  else
    match (construct.start t).filter fun m => m.mark 2 == container with
    | some m => some (make container .method (m.mark 1))
    | none =>
      let named := (method.start t).filter fun m =>
        !keywords.elem (m.mark 3) && m.mark 2 != ("new" : Text) && m.mark 2 != ("return" : Text)
      match named with
      | some m => some (make (m.mark 3) .method (m.mark 1))
      | none =>
        match field.start t with
        | some m =>
          let isConstant := (wholeWord "static").occursIn (m.mark 1) && (wholeWord "final").occursIn (m.mark 1)
          if inInterface || isConstant then some (make (m.mark 2) .const (m.mark 1)) else none
        | none => none

/- Members one brace inside a type, of which `left` lines are still to come before the last one. -/
def membersFrom (container : Text) (inInterface : Bool) (depth : Nat) (above : List CodeLine)
    (line left : Nat) (ls : List CodeLine) : List Declaration :=
  match ls, left with
  | [], _ => []
  | _, 0 => []
  | l :: rest, left + 1 =>
    let found :=
      if l.before.braces ≠ depth || l.before.brackets ≠ 0 then none
      else member? container inInterface above l rest line
    match found with
    | none => membersFrom container inInterface depth (l :: above) (line + 1) left rest
    | some d =>
      let n := CodeLine.blockLength (l :: rest)
      d :: membersFrom container inInterface depth ((rest.take n).reverse ++ l :: above) (line + n + 1)
        (left - n) (rest.drop n)
  termination_by ls.length
  decreasing_by all_goals (simp only [List.length_cons, List.length_drop]; omega)

def typeKind (keyword : Text) : SymbolKind :=
  if keyword == ("interface" : Text) || keyword == ("@interface" : Text) then .interface
  else if keyword == ("enum" : Text) then .enum
  else .class

def declarationsFrom (above : List CodeLine) (line : Nat) (ls : List CodeLine) : List Declaration :=
  match ls with
  | [] => []
  | l :: rest =>
    match (if l.before.braces ≠ 0 then none else typeLine.start (dropAnnotations (trim l.code))) with
    | none => declarationsFrom (l :: above) (line + 1) rest
    | some m =>
      let n := CodeLine.blockLength (l :: rest)
      let kind := typeKind (m.mark 2)
      let d := declaration above l line n (m.mark 3) kind ((wholeWord "public").occursIn (m.mark 1)) none
      let members := membersFrom d.name (kind = .interface) (l.before.braces + 1) (l :: above) (line + 1)
        (n - 1) rest
      d :: (members ++ declarationsFrom ((rest.take n).reverse ++ l :: above) (line + n + 1) (rest.drop n))
  termination_by ls.length
  decreasing_by all_goals (simp only [List.length_cons, List.length_drop]; omega)

/- A type is bound under its last segment; a static import names a member of a type, and a wildcard a
package or a type. -/
def importStatement (line : Nat) (m : Pattern.Match) : ImportStatement :=
  let path := m.mark 2
  if (m.mark? 3).isSome then .ofWildcard path line
  else
    let last := afterLast (unit '.') path
    let cut := findLast? [unit '.'] path
    let owner := match cut with | some i => path.take i | none => path.dropLast
    .ofNames (if (m.mark? 1).isSome then owner else path) line [⟨last, last⟩]

def imports (ls : List CodeLine) : List ImportStatement :=
  ls.zipIdx.filterMap fun (l, i) => (importLine.start (trim l.code)).map (importStatement (i + 1))

/-- Whether a line is the header of a method or constructor, and no statement that starts with a call. -/
def isHeader (t : Text) : Bool :=
  if statementStart.starts t then false
  else if method.starts t then true
  else
    match construct.start t with
    | none => false
    | some m =>
      if keywords.elem (m.mark 2) then false
      else if !(m.mark 1).isEmpty then true
      else ((m.mark 2).head?.map isUpper).getD false && constructorEnd.occursIn t

def afterParameters (t : Text) : Text := (t.dropWhile (· != unit ')')).drop 1

def calls (ls : List CodeLine) : List CallSite :=
  ls.zipIdx.flatMap fun (l, i) =>
    let t := dropAnnotations (trim l.code)
    if packageOrImport.starts t then []
    else (callees keywords (if isHeader t then afterParameters t else l.code)).map fun c => ⟨c, i + 1⟩

/- A static member is exported under its own name. -/
def exportRow? (d : Declaration) : Option ExportRow :=
  if !d.exported then none
  else
    match d.container with
    | none => some (.own d.name d.name)
    | some c =>
      if (wholeWord "static").occursIn (d.signature.getD []) then
        some (.own d.name (c ++ (unit '.' :: d.name)))
      else none

def outline (text : Text) : Outline :=
  let sources := Text.lines text
  let ls := CodeLine.index sources (Mask.code ⟨false, true, false⟩ sources)
  let declarations := declarationsFrom [] 1 ls
  { lineCount := sources.length, declarations, imports := imports ls
    exports := declarations.filterMap exportRow?, calls := calls ls }

end AnnotationIndex.Java
