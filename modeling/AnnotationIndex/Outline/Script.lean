import AnnotationIndex.Outline.Basic
import AnnotationIndex.Outline.Script.Exported
import AnnotationIndex.Path

/-!
The outline of TypeScript and JavaScript files, read off their syntax tree. Names that another statement
exports count as exported; which these are is found first, over the whole file.
-/
namespace AnnotationIndex.Script
open Text

section Source

structure Source where
  text : Text
  feeds : List Nat

namespace Source

def ofText (t : Text) : Source :=
  ⟨t, t.zipIdx.filterMap fun (u, i) => if u == 0x0A then some i else none⟩

def lineAt (s : Source) (pos : Nat) : Nat := (s.feeds.takeWhile (· < pos)).length + 1

def span (s : Source) (n : Node) : LineSpan := ⟨s.lineAt n.start, s.lineAt n.stop⟩

def slice (s : Source) (start stop : Nat) : Text := (s.text.drop start).take (stop - start)

end Source

/- What may end a signature besides blanks. -/
def signatureEnds : List Text := List.map ofString ["=>", "\x7b", "=", ";"]

def cutEnd (t : Text) : Text :=
  match signatureEnds.find? (endsWith t) with
  | some e => trim (dropTail e t)
  | none => t

def shorten (t : Text) : Text :=
  if t.length > Outline.signatureLimit then t.take (Outline.signatureLimit - 3) ++ ofString "..." else t

/-- The text of a declaration up to its body, or without a body its first line, on one line. -/
def signatureOf (s : Source) (n : Node) (body : Option Nat) : Text :=
  let t :=
    match body with
    | some b => s.slice n.start b
    | none => (s.slice n.start n.stop).takeWhile (· != 0x0A)
  shorten (cutEnd (trim (collapseBlanks t)))

end Source

section Declarations

structure Part where
  declarations : List Declaration
  imports : List ImportStatement
  exports : List ExportRow

namespace Part

def empty : Part := ⟨[], [], []⟩

def append (a b : Part) : Part :=
  ⟨a.declarations ++ b.declarations, a.imports ++ b.imports, a.exports ++ b.exports⟩

def concat (ps : List Part) : Part := ps.foldr append empty

end Part

def rowsOf (title : Text) (exported isDefault : Bool) : List ExportRow :=
  if isDefault then [.own "default" title] else if exported then [.own title title] else []

def isPrivate (title : Text) (modifiers : List Text) : Bool :=
  modifiers.elem ("private" : Text) || startsWith title "#"

def memberOf (s : Source) (container : Text) (exported : Bool) (n : Node) (title : Text)
    (modifiers : List Text) (body : Nat) : Declaration :=
  { name := title, kind := .method, lineSpan := s.span n
    exported := exported && !isPrivate title modifiers
    container := some container
    signature := some (signatureOf s n (some body)) }

def members (s : Source) (container : Text) (exported : Bool) (parts : List Node) : List Declaration :=
  (parts.filterMap fun n => match n.kind with
    | .method title modifiers (some body) => some (memberOf s container exported n title modifiers body)
    | _ => none) ++
  parts.filterMap fun n => match n.kind with
    | .field title modifiers (some body) => some (memberOf s container exported n title modifiers body)
    | _ => none

def symbolKind : DeclarationKind → SymbolKind
  | .function => .function
  | .class => .class
  | .interface => .interface
  | .type => .type
  | .enum => .enum
  | .module => .module

def declared (s : Source) (exported : Exported) (n : Node) (kind : DeclarationKind) (title : Text)
    (modifiers : List Text) (body : Option Nat) : Part :=
  let isExported := modifiers.elem ("export" : Text) || exported.covers n.start
  let isDefault := kind ≠ .module &&
    (modifiers.elem ("default" : Text) || exported.isDefault n.start)
  let self : Declaration :=
    { name := title, kind := symbolKind kind, lineSpan := s.span n, exported := isExported
      container := none, signature := some (signatureOf s n body) }
  let inside := if kind = .class then members s title isExported n.parts else []
  ⟨self :: inside, [], rowsOf title isExported isDefault⟩

/-- A function without a body and a module named by a string give nothing. -/
def declarationPart (s : Source) (exported : Exported) (n : Node) (kind : DeclarationKind)
    (title : Option Text) (modifiers : List Text) (body : Option Nat) : Part :=
  match kind with
  | .function => if body.isNone then .empty else declared s exported n kind (title.getD "default") modifiers body
  | .class => declared s exported n kind (title.getD "default") modifiers body
  | .module => match title with
    | some t => declared s exported n kind t modifiers none
    | none => .empty
  | _ => declared s exported n kind (title.getD []) modifiers none

end Declarations

section Variables

def isCallOf (name : String) (n : Node) : Bool :=
  match n.kind, n.parts with
  | .call, callee :: _ => Node.identifierName? callee == some (ofString name)
  | _, _ => false

def stringArgument (n : Node) : Option Text :=
  match n.parts with
  | _ :: argument :: _ => match argument.kind with
    | .string value => some value
    | _ => none
  | _ => none

def requiredModule (value : Node) : Option Text :=
  if isCallOf "require" value then stringArgument value else none

def requiredImport (s : Source) (n target : Node) (specifier : Text) : List ImportStatement :=
  match target.kind with
  | .identifier t => [.ofAlias specifier (s.lineAt n.start) t]
  | .objectPattern =>
    [.ofNames specifier (s.lineAt n.start) (target.parts.filterMap fun e => match e.kind with
      | .element source bound => some ⟨source.getD bound, bound⟩
      | _ => none)]
  | _ => []

def functionStart (value : Option Node) : Option Nat :=
  match value with
  | some v => match v.kind with
    | .function body => some body
    | _ => none
  | none => none

/-- One variable of a statement; alone in its statement it has the statement's lines. -/
def variablePart (s : Source) (statement : Node) (keyword : Text) (exported alone : Bool) (n : Node) :
    Part :=
  match n.kind, n.parts with
  | .variable hasValue, target :: rest =>
    let value := if hasValue then rest.getLast? else none
    match value.bind requiredModule with
    | some specifier => ⟨[], requiredImport s n target specifier, []⟩
    | none =>
      match Node.identifierName? target with
      | none => .empty
      | some title =>
        let body := functionStart value
        let kind : SymbolKind :=
          if body.isSome then .function else if keyword == ("const" : Text) then .const else .variable
        let self : Declaration :=
          { name := title, kind, lineSpan := s.span (if alone then statement else n), exported
            container := none
            signature := some (keyword ++ 0x20 :: signatureOf s n body) }
        ⟨[self], [], rowsOf title exported false⟩
  | _, _ => .empty

end Variables

section Statements

def importedNames (names : List Specifier) : List ImportedName :=
  names.map fun e => ⟨e.name, e.newName.getD e.name⟩

def exportsFrom (line : Nat) (specifier : Text) (star : Option Text) (names : List Specifier) : Part :=
  let whole :=
    match star with
    | some n => [ExportRow.star n specifier]
    | none => if names.isEmpty then [ExportRow.star "*" specifier] else []
  let rows := names.map fun e => ExportRow.again (e.newName.getD e.name) specifier e.name
  ⟨[], [.ofNames specifier line (importedNames names)], whole ++ rows⟩

def statementPart (s : Source) (exported : Exported) (n : Node) : Except OutlineFault Part :=
  let line := s.lineAt n.start
  match n.kind with
  | .importDeclaration module default star names =>
    match module with
    | none => throw .moduleNotString
    | some specifier =>
      let default := default.toList.map fun t => ⟨"default", t⟩
      return ⟨[], [⟨specifier, line, default ++ importedNames names, star, false⟩], []⟩
  | .exportDeclaration (some specifier) star names => return exportsFrom line specifier star names
  | .exportDeclaration none _ names =>
    return ⟨[], [], names.map fun e => .own (e.newName.getD e.name) e.name⟩
  | .exportAssignment _ =>
    return ⟨[], [], (n.parts.filterMap Node.identifierName?).map fun t => .own "default" t⟩
  | .declaration kind title modifiers body => return declarationPart s exported n kind title modifiers body
  | .variableList keyword isExported =>
    return .concat (n.parts.map (variablePart s n keyword isExported (n.parts.length == 1)))
  | _ => return .empty

end Statements

section Calls

def calleeText (n : Node) : Option Text :=
  match n.kind, n.parts with
  | .identifier t, _ => some t
  | .member m, [target] =>
    match target.kind with
    | .identifier t => some (t ++ unit '.' :: m)
    | .this => some (ofString "this." ++ m)
    | _ => none
  | _, _ => none

def isDynamicImport (n : Node) : Bool :=
  match n.kind, n.parts with
  | .call, callee :: _ => callee.kind == .importKeyword
  | _, _ => false

/- A required module is an import, wherever it is required. -/
def callSite? (s : Source) (n : Node) : Option CallSite :=
  if isDynamicImport n || isCallOf "require" n then none
  else
    match n.kind, n.parts with
    | .call, callee :: _ => (calleeText callee).map fun t => ⟨t, s.lineAt n.start⟩
    | .create, callee :: _ => (calleeText callee).map fun t => ⟨t, s.lineAt n.start⟩
    | _, _ => none

def dynamicImport? (s : Source) (n : Node) : Option ImportStatement :=
  if isDynamicImport n then
    (stringArgument n).map fun specifier => .ofNames specifier (s.lineAt n.start) []
  else none

end Calls

structure Dialect where
  elements : Bool
  typeArguments : Bool
  isScript : Bool

def Dialect.ofPath (path : Text) : Dialect :=
  let extension := lower (Path.extension path)
  let isTyped := [".ts", ".mts", ".cts"].any fun e => extension == ofString e
  let isTypedElements := extension == (".tsx" : Text)
  ⟨!isTyped, isTyped || isTypedElements, !isTyped && !isTypedElements⟩

/-- The outline of a file. Imports made by calls come after those of statements. -/
def outline (path text : Text) : Except OutlineFault Outline := do
  let dialect := Dialect.ofPath path
  let statements := parseFile dialect.elements dialect.typeArguments text
  let s := Source.ofText text
  let exported := Exported.ofStatements dialect.isScript statements
  let parts := Part.concat (← statements.mapM (statementPart s exported))
  let nodes := Node.walkAll statements
  return {
    lineCount := lineCount text
    declarations := parts.declarations
    imports := parts.imports ++ nodes.filterMap (dynamicImport? s)
    exports := parts.exports
    calls := nodes.filterMap (callSite? s) }

end AnnotationIndex.Script
