import AnnotationIndex.Link.Inquiry

/-!
The symbol behind an exported name. A name is followed through imports and exports of exports, from
file to file and from name to name; a name that is met again on the way is passed over. Whether that
happened tells if an answer holds independently of the way that led to it.
-/
namespace AnnotationIndex
open Text

namespace LinkUnit

/-- A name that an export row gives, from the unit itself or from another module. A row that binds a
whole module gives no symbol. -/
def askRow (u : LinkUnit) (row : ExportRow) : Inquiry :=
  match row.source with
  | none =>
    let name := row.binding.getD row.name
    match u.symbolNamed name with
    | some s => .answer (.found s)
    | none =>
      match u.binding? name with
      | some b => .imported u.path b.statement.request b.name
      | none => .answer .nothing
  | some specifier =>
    if row.sourceName == some ("*" : Text) then .answer .nothing
    else .imported u.path ⟨specifier, false⟩ (row.sourceName.getD row.name)

def askStar (u : LinkUnit) (name : Text) (row : ExportRow) : Inquiry :=
  match row.source with
  | none => .answer .nothing
  | some specifier =>
    .modules ⟨specifier, false⟩ u.path fun targets =>
      .first (fun target => .name ⟨target, name⟩ fun l => .answer l.inside) targets

/-- How an exported name is found: by the rows of the name itself, then by those for all names. -/
def askName (u : LinkUnit) (name : Text) : Inquiry :=
  let own := Inquiry.first u.askRow (u.exports.filter fun r => r.name == name)
  if name == ("default" : Text) then own
  else own.orElse (.first (u.askStar name) (u.exports.filter fun r => r.name == ("*" : Text)))

def names (u : LinkUnit) : List Text :=
  (u.exports.flatMap fun r => r.name :: r.sourceName.toList) ++
    u.imports.flatMap fun s => s.names.map (·.name)

end LinkUnit

namespace LinkTables

def inquiry (t : LinkTables) (k : ExportKey) : Inquiry :=
  match t.unit? k.path with
  | none => .answer .nothing
  | some u => u.askName k.name

def search (t : LinkTables) : Nat → List Text → ExportKey → Lookup
  | 0, _, _ => ⟨none, false⟩
  | fuel + 1, visiting, k =>
    if visiting.elem k.text then ⟨none, false⟩
    else (t.inquiry k).eval t.targets fun next => search t fuel (k.text :: visiting) next

def allNames (t : LinkTables) : List Text := t.units.flatMap (·.names)

/-- More than there can be names on one way. -/
def searchBound (t : LinkTables) : Nat := (t.units.length + 1) * (t.allNames.length + 1) + 1

def resolveExport (t : LinkTables) (path name : Text) : Option Text :=
  (t.search t.searchBound [] ⟨path, name⟩).value

def resolveImported (t : LinkTables) (path : Text) (request : ModuleRequest) (name : Text) : Option Text :=
  ((Inquiry.imported path request name).eval t.targets (t.search t.searchBound [])).value

end LinkTables
end AnnotationIndex
