import AnnotationIndex.Annotations.Basic
import AnnotationIndex.Constraint
import AnnotationIndex.Diagnostic
import AnnotationIndex.Outline.Basic

/-!
The index of a project: what is recorded of every file and symbol, the tables over the whole project,
and the content hashes that tell whether the index is up to date.
-/
namespace AnnotationIndex

def external : Text := "external"

structure SymbolRecord where
  qualifiedName : Text
  name : Text
  kind : SymbolKind
  file : Text
  lineSpan : LineSpan
  exported : Bool
  container : Option Text
  signature : Option Text
  purpose : Option Text
  /-- The symbol's own constraint; without one it takes the file's. -/
  constraint : Option Constraint
  annotations : AnnotationMap
  callers : List Text
  callees : List Text
  deriving DecidableEq

structure InlineMarker where
  nameSpace : Text
  line : Int
  directive : Text
  value : Option Text
  /-- The qualified name of the symbol that the marker stands at or in. -/
  symbol : Option Text
  deriving DecidableEq

structure LinkedName where
  name : Text
  binding : Text
  /-- A qualified name, or `external`. -/
  symbol : Text
  deriving DecidableEq

/-- An import statement with one of its targets; a statement with several has an entry for each. -/
structure ImportEntry where
  specifier : Text
  line : Int
  /-- A path of the project, or `external`. -/
  target : Text
  names : List LinkedName
  namespaceAlias : Option Text
  wildcard : Option Bool
  deriving DecidableEq

structure CallRecord where
  callee : Text
  line : Int
  /-- The qualified name of the innermost symbol around the call. -/
  caller : Option Text
  deriving DecidableEq

structure FileRecord where
  path : Text
  language : Text
  lines : Int
  module : Option Text
  summary : Option Text
  purpose : Option Text
  owner : Option Text
  layer : Option Text
  domains : List Text
  constraint : Constraint
  annotations : AnnotationMap
  /-- Qualified names in the order of the declarations. -/
  symbols : List Text
  inline : List InlineMarker
  exports : List ExportRow
  imports : List ImportEntry
  importedBy : List Text
  calls : List CallRecord
  diagnostics : Option (List Diagnostic)
  deriving DecidableEq

structure DomainRecord where
  name : Text
  description : Option Text
  files : List Text
  symbols : List Text
  deriving DecidableEq

structure LockTable where
  frozen : List Text
  restricted : List Text
  approvalRequired : List Text
  testsRequired : List Text
  docsRequired : List Text
  normal : List Text
  deriving DecidableEq

structure OriginCounts where
  explicit : Int
  converted : Int
  heuristic : Int
  refined : Int
  inferred : Int
  deriving DecidableEq

structure LowConfidence where
  file : Text
  line : Int
  nameSpace : Text
  origin : Origin
  confidence : Option Number
  deriving DecidableEq

structure ProvenanceStats where
  byOrigin : OriginCounts
  needsReview : Int
  reviewed : Int
  lowConfidence : List LowConfidence
  deriving DecidableEq

structure ProjectIndex where
  files : Table FileRecord
  symbols : Table SymbolRecord
  domains : Table DomainRecord
  locks : LockTable
  provenance : ProvenanceStats
  contentHashes : Table Text
  deriving DecidableEq

namespace SymbolRecord

def displayName (s : SymbolRecord) : Text :=
  match s.container with
  | some c => if c.isEmpty then s.name else c ++ (Text.unit '.' :: s.name)
  | none => s.name

end SymbolRecord

namespace LockTable

def ofLevel (t : LockTable) : LockLevel → List Text
  | .frozen => t.frozen
  | .restricted => t.restricted
  | .approvalRequired => t.approvalRequired
  | .testsRequired => t.testsRequired
  | .docsRequired => t.docsRequired
  | .normal => t.normal

def tabulate (f : LockLevel → List Text) : LockTable :=
  ⟨f .frozen, f .restricted, f .approvalRequired, f .testsRequired, f .docsRequired, f .normal⟩

end LockTable

namespace OriginCounts

def count (c : OriginCounts) : Origin → Int
  | .explicit => c.explicit
  | .converted => c.converted
  | .heuristic => c.heuristic
  | .refined => c.refined
  | .inferred => c.inferred

def tabulate (f : Origin → Int) : OriginCounts :=
  ⟨f .explicit, f .converted, f .heuristic, f .refined, f .inferred⟩

end OriginCounts

namespace ProjectIndex

def version : Text := "1.0"

end ProjectIndex
end AnnotationIndex
