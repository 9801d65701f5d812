import AnnotationIndex.Configuration
import AnnotationIndex.Query.Finding
import AnnotationIndex.Query.Search
import AnnotationIndex.Query.Statistics

/-!
What a query answers. An index that is out of date answers nothing, unless its answers are wanted with a note of the
files that have changed.
-/
namespace AnnotationIndex
open Text

inductive QueryResult (α : Type) where
  /-- What was found, with the files that have changed since the index was made. -/
  | found (value : α) (changed : List Text)
  | notFound (name : Text)
  | ambiguous (name : Text) (candidates : List Text)
  | stale (changed : List Text)
  deriving DecidableEq

namespace QueryResult
variable {α : Type}

def ofFinding (settings : QuerySettings) (changed : List Text) (l : Finding α) : QueryResult α :=
  if !changed.isEmpty && !settings.bestEffort then .stale changed
  else
    match l with
    | .found value => .found value changed
    | .notFound name => .notFound name
    | .ambiguous name candidates => .ambiguous name candidates

end QueryResult

inductive QueryOperation where
  | symbol
  | file
  | domain
  | callers
  | callees
  | search
  | stats
  deriving DecidableEq, Repr

namespace QueryOperation

def all : List QueryOperation := [symbol, file, domain, callers, callees, search, stats]

def name : QueryOperation → Text
  | symbol => "symbol"
  | file => "file"
  | domain => "domain"
  | callers => "callers"
  | callees => "callees"
  | search => "search"
  | stats => "stats"

def ofName? (t : Text) : Option QueryOperation := all.find? (·.name == t)

end QueryOperation

inductive QueryValue where
  | symbol (view : SymbolView)
  | file (record : FileRecord)
  | domain (record : DomainRecord)
  | names (qualifiedNames : List Text)
  | search (result : SearchResult)
  | stats (statistics : ProjectStatistics)

namespace ProjectIndex

def look (r : ProjectIndex) (settings : QuerySettings) (op : QueryOperation) (target : Text) (limit : Option Int) :
    Finding QueryValue :=
  match op with
  | .symbol => (r.symbolView target).map .symbol
  | .file => (r.findFile target).map .file
  | .domain => (r.findDomain target).map .domain
  | .callers => (r.callersOf target).map .names
  | .callees => (r.calleesOf target).map .names
  | .search => .found (.search (r.search settings.caseSensitive target (limit.getD settings.defaultLimit)))
  | .stats => .found (.stats r.statistics)

def query (r : ProjectIndex) (settings : QuerySettings) (changed : List Text) (op : QueryOperation) (target : Text)
    (limit : Option Int) : QueryResult QueryValue :=
  .ofFinding settings changed (r.look settings op target limit)

end ProjectIndex
end AnnotationIndex
