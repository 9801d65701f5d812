import AnnotationIndex.LineSpan
import AnnotationIndex.Text.Lines

/-!
The outline of a source file: its declarations, import statements, export table and direct calls.
Annotations play no part in it.
-/
namespace AnnotationIndex

inductive SymbolKind where
  | function
  | «class»
  | method
  | const
  | variable
  | type
  | interface
  | enum
  | struct
  | trait
  | module
  deriving DecidableEq, Repr

namespace SymbolKind

def all : List SymbolKind :=
  [function, .class, method, const, .variable, type, interface, enum, struct, trait, module]

def name : SymbolKind → Text
  | function => "function"
  | .class => "class"
  | method => "method"
  | const => "const"
  | .variable => "variable"
  | type => "type"
  | interface => "interface"
  | enum => "enum"
  | struct => "struct"
  | trait => "trait"
  | module => "module"

def ofName? (t : Text) : Option SymbolKind := all.find? (·.name == t)

end SymbolKind

structure Declaration where
  name : Text
  kind : SymbolKind
  lineSpan : LineSpan
  exported : Bool
  /-- The class, struct, impl or trait that a method belongs to. -/
  container : Option Text
  signature : Option Text
  deriving DecidableEq

structure ImportedName where
  /-- The name as the target module exports it, `default` for a default import. -/
  name : Text
  /-- The name that it is bound to in the importing file. -/
  binding : Text
  deriving DecidableEq

structure ImportStatement where
  specifier : Text
  line : Int
  names : List ImportedName
  /-- The name that the whole module is bound to. -/
  namespaceAlias : Option Text
  /-- Whether every exported name becomes visible. -/
  wildcard : Bool
  deriving DecidableEq

structure ExportRow where
  name : Text
  binding : Option Text
  source : Option Text
  /-- The name in the other module where it differs, `*` for all of its names. -/
  sourceName : Option Text
  deriving DecidableEq

structure CallSite where
  callee : Text
  line : Int
  deriving DecidableEq

structure Outline where
  lineCount : Nat
  declarations : List Declaration
  imports : List ImportStatement
  exports : List ExportRow
  calls : List CallSite

inductive OutlineFault where
  /-- An import names its module by something else than a string. -/
  | moduleNotString
  | other (reason : Text)
  deriving DecidableEq

def OutlineFault.message : OutlineFault → Text
  | moduleNotString => "Expected the module specifier to be a string literal."
  | other reason => reason

namespace Declaration

def displayName (d : Declaration) : Text :=
  match d.container with
  | some c => if c.isEmpty then d.name else c ++ (Text.unit '.' :: d.name)
  | none => d.name

def toJson (d : Declaration) : Json :=
  Json.fields [
    ("name", some (.str d.name)),
    ("kind", some (.str d.kind.name)),
    ("lineSpan", some d.lineSpan.toJson),
    ("exported", some (.bool d.exported)),
    ("container", d.container.map .str),
    ("signature", d.signature.map .str)]

end Declaration

namespace ImportStatement

def ofNames (specifier : Text) (line : Int) (names : List ImportedName) : ImportStatement :=
  ⟨specifier, line, names, none, false⟩

def ofAlias (specifier : Text) (line : Int) (name : Text) : ImportStatement :=
  ⟨specifier, line, [], some name, false⟩

def ofWildcard (specifier : Text) (line : Int) : ImportStatement := ⟨specifier, line, [], none, true⟩

def toJson (s : ImportStatement) : Json :=
  Json.fields [
    ("specifier", some (.str s.specifier)),
    ("line", some (Json.ofInt s.line)),
    ("names", some (.arr (s.names.map fun n =>
      Json.fields [("name", some (.str n.name)), ("local", some (.str n.binding))]))),
    ("namespaceAlias", s.namespaceAlias.map .str),
    ("wildcard", if s.wildcard then some (.bool true) else none)]

end ImportStatement

namespace ExportRow

def own (name binding : Text) : ExportRow := ⟨name, some binding, none, none⟩

def again (name source sourceName : Text) : ExportRow :=
  ⟨name, none, some source, if sourceName == name then none else some sourceName⟩

def star (name source : Text) : ExportRow := ⟨name, none, some source, some "*"⟩

def toJson (r : ExportRow) : Json :=
  Json.fields [
    ("name", some (.str r.name)),
    ("local", r.binding.map .str),
    ("from", r.source.map .str),
    ("sourceName", r.sourceName.map .str)]

end ExportRow

def CallSite.toJson (c : CallSite) : Json :=
  Json.fields [("callee", some (.str c.callee)), ("line", some (Json.ofInt c.line))]

namespace Outline

/-- The lines from the first to the end of the file; an empty file still has its first line. -/
def boundary (lineCount : Nat) : Json :=
  Json.fields [
    ("lineSpan", some (LineSpan.toJson ⟨1, max 1 lineCount⟩)),
    ("lines", some (Json.ofNat lineCount))]

def toJson (o : Outline) : List (String × Option Json) := [
  ("file", some (boundary o.lineCount)),
  ("symbols", some (.arr (o.declarations.map Declaration.toJson))),
  ("imports", some (.arr (o.imports.map ImportStatement.toJson))),
  ("exports", some (.arr (o.exports.map ExportRow.toJson))),
  ("calls", some (.arr (o.calls.map CallSite.toJson)))]

def signatureLimit : Nat := 200

def ofLines (t : Text) : Outline := ⟨Text.lineCount t, [], [], [], []⟩

end Outline
end AnnotationIndex
