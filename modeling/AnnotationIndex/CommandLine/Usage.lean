import AnnotationIndex.Query.Result

/-!
What the commands are, and the options and arguments that they take.
-/
namespace AnnotationIndex
open Text

structure OptionUsage where
  letter : Option Char
  name : Text
  value : Option Text
  standard : Option Text
  description : Text

structure ArgumentUsage where
  name : Text
  required : Bool
  repeated : Bool
  description : Text

namespace OptionUsage

def long (o : OptionUsage) : Text := "--" ++ o.name

def short? (o : OptionUsage) : Option Text := o.letter.map fun c => [unit '-', unit c]

def flags (o : OptionUsage) : Text :=
  let short : Text := (o.short?.map (· ++ (ofString ", "))).getD []
  let value : Text := (o.value.map fun v => ofString " <" ++ v ++ ">").getD []
  short ++ o.long ++ value

def isSpelt (o : OptionUsage) (arg : Text) : Bool := o.long == arg || o.short? == some arg

def flag (letter : Option Char) (name description : String) : OptionUsage :=
  ⟨letter, ofString name, none, none, ofString description⟩

def taking (letter : Option Char) (name value description : String) : OptionUsage :=
  ⟨letter, ofString name, some (ofString value), none, ofString description⟩

def help : OptionUsage := flag (some 'h') "help" "display help for command"

def version : OptionUsage := flag (some 'V') "version" "output the version number"

def config : OptionUsage := taking (some 'c') "config" "path" "Path to config file"

def root : OptionUsage := taking (some 'r') "root" "dir" "Project root (default: current directory)"

def strict : OptionUsage := flag none "strict" "Reject files with malformed annotations"

def json (description : String) : OptionUsage := flag none "json" description

def verbose : OptionUsage := flag (some 'v') "verbose" "Log per-phase details"

def quiet : OptionUsage := flag (some 'q') "quiet" "Only log warnings and errors"

def limit : OptionUsage := taking (some 'l') "limit" "n" "Maximum search matches"

def bestEffort : OptionUsage := flag none "best-effort" "Answer from a stale cache, flagging stale files"

def standardDebounce : Nat := 300

def debounce : OptionUsage :=
  { taking none "debounce" "ms" "Debounce delay in milliseconds" with standard := some (ofNat standardDebounce) }

def noPoll : OptionUsage := flag none "no-poll" "Use native file system events instead of polling"

end OptionUsage

def ArgumentUsage.term (a : ArgumentUsage) : Text :=
  let name : Text := if a.repeated then a.name ++ (ofString "...") else a.name
  if a.required then "<" ++ name ++ ">" else "[" ++ name ++ "]"

inductive Command where
  | index
  | update
  | query
  | watch
  deriving DecidableEq, Repr

namespace Command

def all : List Command := [index, update, query, watch]

def name : Command → Text
  | index => "index"
  | update => "update"
  | query => "query"
  | watch => "watch"

def ofName? (t : Text) : Option Command := all.find? (·.name == t)

def description : Command → Text
  | index => "Index @acp annotations and write the cache"
  | update => "Reindex changed, added or deleted files"
  | query => "Query the index (" ++ join ", " (QueryOperation.all.map QueryOperation.name) ++ ")"
  | watch => "Watch the project and update the cache on changes"

def arguments : Command → List ArgumentUsage
  | index => []
  | update => [⟨"paths", true, true, "Changed file paths"⟩]
  | query =>
    [⟨"type", true, false, "Query type"⟩, ⟨"name", false, false, "Symbol, file, domain name or search pattern"⟩]
  | watch => []

open OptionUsage in
def options : Command → List OptionUsage
  | index => [config, root, strict, json "Output a JSON summary", verbose, quiet]
  | update => [config, root, strict, json "Output the update result as JSON", verbose, quiet]
  | query => [config, root, limit, bestEffort, json "Output the protocol response as JSON", verbose]
  | watch => [config, root, strict, debounce, noPoll, verbose]

def shownOptions (c : Command) : List OptionUsage := c.options ++ [OptionUsage.help]

def usage (c : Command) : Text := join " " (ofString "[options]" :: c.arguments.map ArgumentUsage.term)

end Command

/- The program that has these commands. -/
namespace Program

def name : Text := "acp"

def version : Text := "0.1.0"

def description : Text := "Index @acp annotations and query the resulting cache"

def options : List OptionUsage := [OptionUsage.version]

def shownOptions : List OptionUsage := options ++ [OptionUsage.help]

def usage : Text := "[options] [command]"

def helpName : Text := "help"

end Program
end AnnotationIndex
