import AnnotationIndex.Index.Document
import AnnotationIndex.Query.Result

/-!
Queries and answers as values for programs: a request states what it asks for, and its response holds what was found or
says why nothing was.
-/
namespace AnnotationIndex
open Text

section Writing

def SymbolView.toJson (v : SymbolView) : Json :=
  match v.symbol.toJson with
  | .obj fs =>
    .obj (fs ++ [(ofString "effectiveConstraint", Json.fields [
      ("constraint", some v.constraint.toJson), ("source", some (.str v.source.name))])])
  | j => j

def SearchMatch.toJson : SearchMatch → Json
  | .symbol qualifiedName name owner purpose => Json.fields [
      ("kind", some (.str "symbol")), ("qualifiedName", some (.str qualifiedName)), ("name", some (.str name)),
      ("file", some (.str owner)), ("purpose", purpose.map .str)]
  | .file path purpose => Json.fields [
      ("kind", some (.str "file")), ("path", some (.str path)), ("purpose", purpose.map .str)]

def SearchResult.toJson (s : SearchResult) : Json :=
  Json.fields [
    ("matches", some (.arr (s.shown.map SearchMatch.toJson))),
    ("total", some (Json.ofNat s.total)),
    ("truncated", some (.bool s.truncated))]

def ProjectStatistics.toJson (s : ProjectStatistics) : Json :=
  Json.fields [
    ("fileCount", some (Json.ofNat s.fileCount)),
    ("symbolCount", some (Json.ofNat s.symbolCount)),
    ("lineCount", some (Json.ofInt s.lineCount)),
    ("domainCount", some (Json.ofNat s.domainCount)),
    ("constraintCounts", some (.obj (LockLevel.all.map fun l => (l.name, Json.ofNat (s.lockCounts l))))),
    ("languageBreakdown", some (Table.toJson Json.ofNat s.languages))]

def QueryValue.toJson : QueryValue → Json
  | .symbol view => view.toJson
  | .file record => record.toJson
  | .domain record => record.toJson
  | .names qualifiedNames => Json.texts qualifiedNames
  | .search result => result.toJson
  | .stats statistics => statistics.toJson

end Writing

inductive QueryFault where
  | notFound (name : Text)
  | ambiguous (name : Text) (candidates : List Text)
  | stale (changed : List Text)
  | invalid (issues : List Issue)
  | untargeted (op : QueryOperation)
  | failed (reason : Text)

namespace QueryFault

def code : QueryFault → Code
  | notFound _ => .notFound
  | ambiguous _ _ => .ambiguous
  | stale _ => .staleCache
  | invalid _ => .invalidRequest
  | untargeted _ => .invalidRequest
  | failed _ => .internal

def message : QueryFault → Text
  | notFound name => "Not found: " ++ name
  | ambiguous name candidates =>
    "Ambiguous name \"" ++ name ++ "\" matches " ++ ofNat candidates.length ++ " symbols"
  | stale changed => "Cache is stale for " ++ ofNat changed.length ++ " file(s); reindex first"
  | invalid issues => "Invalid query request:\n" ++ Issue.describeAll issues
  | untargeted op => op.name ++ " requires \"name\" or \"pattern\""
  | failed reason => reason

def candidates? : QueryFault → Option (List Text)
  | ambiguous _ candidates => some candidates
  | _ => none

def changed? : QueryFault → Option (List Text)
  | stale changed => some changed
  | _ => none

def toJson (f : QueryFault) : Json :=
  Json.fields [
    ("code", some (.str f.code.text)),
    ("message", some (.str f.message)),
    ("candidates", f.candidates?.map Json.texts),
    ("staleFiles", f.changed?.map Json.texts)]

end QueryFault

inductive QueryResponse where
  | found (value : QueryValue) (changed : List Text)
  | refused (fault : QueryFault)

namespace QueryResponse

def ofResult : QueryResult QueryValue → QueryResponse
  | .found value changed => .found value changed
  | .notFound name => .refused (.notFound name)
  | .ambiguous name candidates => .refused (.ambiguous name candidates)
  | .stale changed => .refused (.stale changed)

def toJson : QueryResponse → Json
  | found value changed => Json.fields [
      ("ok", some (.bool true)), ("result", some value.toJson),
      ("stale", if changed.isEmpty then none else some (.bool true)),
      ("staleFiles", if changed.isEmpty then none else some (Json.texts changed))]
  | refused fault => Json.fields [("ok", some (.bool false)), ("error", some fault.toJson)]

end QueryResponse

/-- A request as it is stated: under either of two names for what to do, and of two for what to look for. -/
structure QueryRequest where
  type : Option QueryOperation
  operation : Option QueryOperation
  name : Option Text
  pattern : Option Text
  limit : Option Int
  deriving DecidableEq

namespace QueryRequest
open Check

def operationNamed : Check QueryOperation := oneOf (QueryOperation.all.map QueryOperation.name) QueryOperation.ofName?

def fields (limit : Check Int) : Check QueryRequest := object fun fs =>
  QueryRequest.mk <$> field fs "type" (optional operationNamed)
    <*> field fs "operation" (optional operationNamed)
    <*> field fs "name" (optional string)
    <*> field fs "pattern" (optional string)
    <*> field fs "limit" (optional limit)

def unstated : Issue := ⟨[], "Either \"type\" or \"operation\" is required"⟩

def operation? (q : QueryRequest) : Option QueryOperation := q.type.or q.operation

def target? (q : QueryRequest) : Option Text := q.name.or q.pattern

/- A limit that is a number but no valid one leaves the request readable, so that a missing operation is an issue
besides it. -/
def ofJson (v : Json) : Except (List Issue) (QueryOperation × QueryRequest) :=
  let checked := fields (intWith [atLeast Number.zero]) (some v)
  match fields (fun v => (number v).map fun _ => 0) (some v) with
  | .bad _ => .error checked.issues
  | .ok loose =>
    match checked, loose.operation? with
    | .ok q, some op => .ok (op, q)
    | c, some _ => .error c.issues
    | c, none => .error (c.issues ++ [unstated])

end QueryRequest

namespace ProjectIndex

/-- Answers a request. The files that have changed may be unknown, for a reason that is then the answer. -/
def respond (r : ProjectIndex) (settings : QuerySettings) (changed : Except Text (List Text)) (request : Json) :
    QueryResponse :=
  match QueryRequest.ofJson request with
  | .error issues => .refused (.invalid issues)
  | .ok (op, q) =>
    if op != .stats && q.target?.isNone then .refused (.untargeted op)
    else
      match changed with
      | .error reason => .refused (.failed reason)
      | .ok changed => .ofResult (r.query settings changed op (q.target?.getD []) q.limit)

end ProjectIndex
end AnnotationIndex
