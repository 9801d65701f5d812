import AnnotationIndex.Outline.Script.Parse
import AnnotationIndex.Outline.Script.Names

/-!
Which declarations of a file other statements export: lists of names, `export default` and `export =` of a
name, and in scripts assignments to the module's exports.
-/
namespace AnnotationIndex.Script
open Text

inductive ExportForm where
  /-- By a list of names. -/
  | listed
  /-- By `export default` or `export =` of an expression. -/
  | assigned
  /-- By a declaration, as the default. -/
  | declared
  deriving DecidableEq

structure ExportEntry where
  name : Text
  target : Option Text
  form : ExportForm

namespace ExportEntry

/-- Whether a name that is exported already excludes this entry for it. -/
def excludedBy (e earlier : ExportEntry) : Bool :=
  e.name == earlier.name &&
    match e.form with
    | .listed => earlier.form = .listed || (earlier.form = .assigned && earlier.target.isSome)
    | .assigned => true
    | .declared => false

def addTo (kept : List ExportEntry) (e : ExportEntry) : List ExportEntry :=
  if kept.any e.excludedBy then kept else kept ++ [e]

/-- The entries that hold: of several for one name the first. -/
def effective (es : List ExportEntry) : List ExportEntry := es.foldl addTo []

end ExportEntry

def isDefaultDeclaration (n : Node) : Bool :=
  match n.kind with
  | .declaration _ _ modifiers _ => modifiers.elem ("default" : Text)
  | _ => false

def exportEntries (n : Node) : List ExportEntry :=
  match n.kind with
  | .exportDeclaration module star names =>
    (star.toList.map fun t => ⟨t, none, .listed⟩) ++
      names.map fun e => ⟨e.newName.getD e.name, if module.isSome then none else some e.name, .listed⟩
  | .exportAssignment isDefault =>
    [⟨if isDefault then "default" else "=", n.parts.head?.bind Node.identifierName?, .assigned⟩]
  | _ => if isDefaultDeclaration n then [⟨"default", none, .declared⟩] else []

def isModuleExports (n : Node) : Bool :=
  match n.kind, n.parts with
  | .member m, [object] => m == ("exports" : Text) && Node.identifierName? object == some ("module" : Text)
  | _, _ => false

def isExportsObject (n : Node) : Bool := isModuleExports n || Node.identifierName? n == some ("exports" : Text)

def shorthandNames (n : Node) : List Text :=
  match n.kind with
  | .object =>
    let names := n.parts.map fun p => match p.kind with | .shorthand t => some t | _ => none
    if names.all Option.isSome then names.filterMap id else []
  | _ => []

def assignedEntries (n : Node) : List (Text × Text) :=
  match n.kind, n.parts with
  | .assignment, [target, value] =>
    if isModuleExports target then
      ((Node.identifierName? value).toList.map fun t => (ofString "=", t)) ++ (shorthandNames value).map fun t => (t, t)
    else
      match target.kind, target.parts with
      | .member m, [object] =>
        if isExportsObject object then (Node.identifierName? value).toList.map fun t => (m, t) else []
      | _, _ => []
  | _, _ => []

/-- The names that assignments to the module's exports make visible; the last one for a name counts. -/
def assignedNames (statements : List Node) : List Text :=
  let entries := (Node.walkAll statements).flatMap assignedEntries
  let last (name : Text) := (entries.filter fun e => e.1 == name).getLast?.map (·.2)
  entries.filterMap fun e => last e.1

/-- The names of a file's own that its statements export, those that are the default, and what names
stand for. -/
structure Exported where
  names : List Text
  defaults : List Text
  meanings : Names

namespace Exported

/-- In scripts without import and export statements assignments to the module's exports count too. -/
def ofStatements (isScript : Bool) (statements : List Node) : Exported :=
  let entries := ExportEntry.effective ((functionsFirst statements).flatMap exportEntries)
  let assigned :=
    if isScript && !statements.any isModuleStatement then assignedNames statements else []
  ⟨entries.filterMap (·.target) ++ assigned,
    (entries.filter fun e => e.name == ("default" : Text)).filterMap (·.target),
    .ofStatements statements⟩

def covers (x : Exported) (place : Nat) : Bool := x.names.any (x.meanings.means · place)

def isDefault (x : Exported) (place : Nat) : Bool := x.defaults.any (x.meanings.means · place)

end Exported

end AnnotationIndex.Script
