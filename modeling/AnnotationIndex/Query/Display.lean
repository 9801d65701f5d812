import AnnotationIndex.Index.Basic
import AnnotationIndex.Query.Result

/-!
Queries and summaries as text for readers.
-/
namespace AnnotationIndex.Display
open Text

def line (parts : List Text) : Text := parts.flatten

def lines (ls : List Text) : Text := join [0x0A] ls

def ofInt (n : Int) : Text := (Number.ofInt n).toText

def nothing : Text := "(none)"

def listed (label : Text) (values : List Text) : List Text :=
  if values.isEmpty then ["  " ++ label ++ ": " ++ nothing]
  else ("  " ++ label ++ ":") :: values.map (("    " : Text) ++ ·)

def noted (label : Text) (t : Option Text) : List Text :=
  match t with
  | some (u :: rest) => ["  " ++ label ++ ": " ++ (u :: rest)]
  | _ => []

def constraintText (c : Constraint) (source : Option ConstraintSource) : Text :=
  let origin : Text := match source with
    | some s => " (" ++ s.name ++ ")"
    | none => []
  c.level.name ++ origin ++ " - " ++ c.directive

def symbolText (v : SymbolView) : Text :=
  let s := v.symbol
  let yesNo : Text := if s.exported then "yes" else "no"
  lines ([s.qualifiedName ++ " " ++ s.kind.name,
      "  file: " ++ s.file ++ ":" ++ ofInt s.lineSpan.start ++ "-" ++ ofInt s.lineSpan.stop,
      "  constraint: " ++ constraintText v.constraint (some v.source)] ++
    noted "signature" s.signature ++ noted "purpose" s.purpose ++
    ["  exported: " ++ yesNo,
      "  callers: " ++ ofNat s.callers.length ++ ", callees: " ++ ofNat s.callees.length])

def diagnosticText (d : Diagnostic) : Text :=
  "  " ++ d.kind.name ++ " line " ++ d.location.line.elim (ofString "-") ofInt ++ ": " ++ d.message

def fileText (f : FileRecord) : Text :=
  lines ([f.path ++ " " ++ f.language ++ ", " ++ ofInt f.lines ++ " lines"] ++
    noted "module" f.module ++ noted "purpose" (f.purpose.or f.summary) ++
    noted "owner" f.owner ++ noted "layer" f.layer ++
    ["  constraint: " ++ constraintText f.constraint none] ++
    (if f.domains.isEmpty then [] else ["  domains: " ++ join ", " f.domains]) ++
    listed "symbols" f.symbols ++ listed "imported by" f.importedBy ++
    (f.diagnostics.getD []).map diagnosticText)

def domainText (d : DomainRecord) : Text :=
  let description := match d.description with
    | some (u :: rest) => [("  " : Text) ++ (u :: rest)]
    | _ => []
  lines ([d.name] ++ description ++ listed "files" d.files ++ listed "symbols" d.symbols)

def namesText (names : List Text) : Text := if names.isEmpty then nothing else lines names

def purposeText : Option Text → Text
  | some (u :: rest) => " - " ++ (u :: rest)
  | _ => []

def matchText : SearchMatch → Text
  | .symbol qualifiedName _ _ purpose => "symbol " ++ qualifiedName ++ purposeText purpose
  | .file path purpose => "file   " ++ path ++ purposeText purpose

def searchText (s : SearchResult) : Text :=
  let cut : Text := if s.truncated then " (truncated)" else []
  lines (s.shown.map matchText ++ [ofNat s.shown.length ++ " of " ++ ofNat s.total ++ " match(es)" ++ cut])

def countText (name : Text) (n : Nat) : Text := "  " ++ name ++ ": " ++ ofNat n

def statisticsText (s : ProjectStatistics) : Text :=
  lines (["files: " ++ ofNat s.fileCount, "symbols: " ++ ofNat s.symbolCount, "lines: " ++ ofInt s.lineCount,
      "domains: " ++ ofNat s.domainCount, "constraints:"] ++
    LockLevel.all.map (fun l => countText l.name (s.lockCounts l)) ++
    [ofString "languages:"] ++ s.languages.map fun (language, n) => countText language n)

def valueText : QueryValue → Text
  | .symbol view => symbolText view
  | .file record => fileText record
  | .domain record => domainText record
  | .names qualifiedNames => namesText qualifiedNames
  | .search result => searchText result
  | .stats statistics => statisticsText statistics

def resultText : QueryResult QueryValue → Text
  | .found value _ => valueText value
  | .notFound name => "Not found: " ++ name
  | .ambiguous name candidates => lines (("Ambiguous: " ++ name ++ " matches") :: candidates.map (("  " : Text) ++ ·))
  | .stale changed =>
    lines ("Cache is stale; run \x60acp index\x60 or pass --best-effort" :: changed.map (("  " : Text) ++ ·))

def diagnosticCount (r : ProjectIndex) : Nat := (r.files.values.flatMap fun f => f.diagnostics.getD []).length

def indexSummary (r : ProjectIndex) : Text :=
  lines ["✓ Indexed " ++ ofNat r.files.length ++ " file(s), " ++ ofNat r.symbols.length ++ " symbol(s)",
    "  domains: " ++ ofNat r.domains.length ++ ", needs review: " ++ ofInt r.provenance.needsReview,
    "  diagnostics: " ++ ofNat (diagnosticCount r)]

def updateSummary (reindexed deleted relinked : List Text) : Text :=
  lines (("✓ Reindexed " ++ ofNat reindexed.length ++ ", deleted " ++ ofNat deleted.length ++ ", relinked " ++
      ofNat relinked.length) ::
    (reindexed.map (("  ~ " : Text) ++ ·) ++ deleted.map (("  - " : Text) ++ ·)))

end AnnotationIndex.Display
