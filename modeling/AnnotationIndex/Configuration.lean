import AnnotationIndex.Annotations.Parse
import AnnotationIndex.Json.Check
import AnnotationIndex.Json.Value

/-!
The settings of a project: which files belong to it, how annotations are read, where the index is kept and
how queries are answered. Every setting has a default, and a group of settings that is missing or null
stands for its defaults.
-/
namespace AnnotationIndex

structure QuerySettings where
  bestEffort : Bool
  caseSensitive : Bool
  defaultLimit : Int
  deriving DecidableEq

structure Configuration where
  included : List Text
  excluded : List Text
  annotations : AnnotationRules
  concurrency : Option Int
  cachePath : Text
  query : QuerySettings
  deriving DecidableEq

namespace Configuration

def defaultIncluded : List Text :=
  List.map (fun e => "**/*." ++ Text.ofString e)
    ["ts", "tsx", "mts", "cts", "js", "jsx", "mjs", "cjs", "py", "pyi", "go", "rs", "java"]

def defaultExcluded : List Text :=
  List.map (fun d => "**/" ++ Text.ofString d ++ "/**")
    ["node_modules", "dist", "build", "target", ".git", "vendor", "__pycache__"] ++ [Text.ofString "**/*.d.ts"]

def defaultCachePath : Text := ".acp.cache.json"

def maxConcurrency : Nat := 64

end Configuration

namespace Check
variable {α : Type}

/-- Missing and null both stand for an object without fields. -/
def group (read : List (Text × Json) → Checked α) : Check α
  | none | some .null => read []
  | v => object read v

def nonEmpty : Check Text := fun v =>
  match string v with
  | .ok [] => .fail "String must contain at least 1 character(s)"
  | c => c

def nameSpaceName : Check Text := fun v =>
  match string v with
  | .ok t =>
    if !t.isEmpty && t.all (fun u => Text.isWord u || u == Text.unit '-') then .ok t else .fail "Invalid"
  | c => c

end Check

namespace Configuration
open Check

def annotationRules : Check AnnotationRules := group fun fs =>
  AnnotationRules.mk
    <$> field fs "mode"
      (withDefault .permissive (oneOf (ValidationMode.all.map ValidationMode.name) ValidationMode.ofName?))
    <*> field fs "review_threshold" (withDefault Provenance.defaultThreshold unitInterval)
    <*> field fs "custom_namespaces" (withDefault [] (list nameSpaceName))

def concurrency? : Check (Option Int) := group fun fs =>
  field fs "concurrency" (optional (intWith [atLeast (Number.ofNat 1), atMost (Number.ofNat maxConcurrency)]))

def cachePathIn : Check Text := group fun fs => field fs "path" (withDefault defaultCachePath nonEmpty)

def querySettings : Check QuerySettings := group fun fs =>
  QuerySettings.mk <$> field fs "best_effort" (withDefault false boolean)
    <*> field fs "case_sensitive" (withDefault true boolean)
    <*> field fs "default_limit" (withDefault 20 (intWith [atLeast (Number.ofNat 1)]))

def check : Check Configuration := object fun fs =>
  Configuration.mk <$> field fs "include" (withDefault defaultIncluded texts)
    <*> field fs "exclude" (withDefault defaultExcluded texts)
    <*> field fs "annotations" annotationRules
    <*> field fs "indexing" concurrency?
    <*> field fs "cache" cachePathIn
    <*> field fs "query" querySettings

def standard : Configuration where
  included := defaultIncluded
  excluded := defaultExcluded
  annotations := ⟨.permissive, Provenance.defaultThreshold, []⟩
  concurrency := none
  cachePath := defaultCachePath
  query := ⟨false, true, 20⟩

def toJson (c : Configuration) : Json :=
  Json.fields [
    ("include", some (Json.texts c.included)),
    ("exclude", some (Json.texts c.excluded)),
    ("annotations", some (Json.fields [
      ("mode", some (.str c.annotations.mode.name)),
      ("review_threshold", some (.num c.annotations.threshold)),
      ("custom_namespaces", some (Json.texts c.annotations.custom))])),
    ("indexing", some (Json.fields [("concurrency", c.concurrency.map Json.ofInt)])),
    ("cache", some (Json.fields [("path", some (.str c.cachePath))])),
    ("query", some (Json.fields [
      ("best_effort", some (.bool c.query.bestEffort)),
      ("case_sensitive", some (.bool c.query.caseSensitive)),
      ("default_limit", some (Json.ofInt c.query.defaultLimit))]))]

end Configuration
end AnnotationIndex
