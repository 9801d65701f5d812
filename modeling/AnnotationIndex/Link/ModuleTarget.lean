import AnnotationIndex.Link.FileSet

/-!
Module targets: the files of the project that the specifier of an import names, by the rules of each
language. No target means that the specifier points outside the project.
-/
namespace AnnotationIndex
open Text

structure ModuleRequest where
  specifier : Text
  /-- Whether every name of the module is asked for. -/
  wildcard : Bool
  deriving DecidableEq

namespace ModuleTarget

section Script

def scriptExtensions : List Text :=
  List.map ofString [".ts", ".tsx", ".mts", ".cts", ".js", ".jsx", ".mjs", ".cjs"]

def sourceExtensions : List (Text × List Text) := [
  (".js", List.map ofString [".ts", ".tsx"]),
  (".jsx", [".tsx"]),
  (".mjs", [".mts"]),
  (".cjs", [".cts"])]

def isRelative (specifier : Text) : Bool :=
  [".", ".."].any fun s => specifier == ofString s || startsWith specifier (ofString s ++ [Path.slash])

def scriptCandidates (base : Text) : List Text :=
  let extension := Path.extension base
  let sources := (sourceExtensions.lookup extension).getD []
  let stem := base.take (base.length - extension.length)
  base :: sources.map (stem ++ ·) ++ scriptExtensions.map (base ++ ·) ++
    scriptExtensions.map fun e => Path.joinAll [base, ("index" : Text) ++ e]

/-- Only relative specifiers name files. -/
def script (specifier source : Text) (files : FileSet) : List Text :=
  if !isRelative specifier then []
  else
    let base := Path.normalize (Path.joinAll [Path.directory source, specifier])
    if startsWith base "../" then [] else files.firstOf (scriptCandidates base)

end Script

section Python

def up : Nat → Text → Text
  | 0, dir => dir
  | n + 1, dir => up n (Path.directory dir)

/-- Leading points climb from the importing file's package; other modules lie in the root or in `src`. -/
def pythonBases (dots : Nat) (source : Text) : List Text :=
  if dots = 0 then [".", "src"] else [up (dots - 1) (Path.directory source)]

def pythonCandidates (segments : List Text) (base : Text) : List Text :=
  let path := Path.joinAll (base :: segments)
  let own := if segments.isEmpty then [] else [path ++ ofString ".py", path ++ ofString ".pyi"]
  own ++ [Path.joinAll [path, "__init__.py"], Path.joinAll [path, "__init__.pyi"]]

def python (specifier source : Text) (files : FileSet) : List Text :=
  let dots := (specifier.takeWhile (· == Path.dot)).length
  let rest := specifier.drop dots
  let segments := if rest.isEmpty then [] else splitOn Path.dot rest
  files.firstOf ((pythonBases dots source).flatMap (pythonCandidates segments))

end Python

section Rust

def isCrateRoot (files : FileSet) (dir : Text) : Bool :=
  files.has (Path.joinAll [dir, "lib.rs"]) || files.has (Path.joinAll [dir, "main.rs"])

/- Directories are tried upwards; from a relative path the fuel is more than there are steps. -/
def crateRootFrom (files : FileSet) (own : Text) : Nat → Text → Text
  | 0, _ => own
  | n + 1, dir =>
    if isCrateRoot files dir then dir
    else if dir == ("." : Text) then own
    else crateRootFrom files own n (Path.directory dir)

/-- The nearest directory above a file that holds the root of a crate, else the file's own. -/
def crateRoot (source : Text) (files : FileSet) : Text :=
  let own := Path.directory source
  crateRootFrom files own (source.length + 1) own

def rustModulePath (path root : Text) : List Text :=
  let segments := splitOn Path.slash (dropTail ".rs" (Path.relative root path))
  let last := segments.getLast?.getD []
  let above := segments.dropLast
  if last == ("mod" : Text) then above
  else if above.isEmpty && (last == ("lib" : Text) || last == ("main" : Text)) then []
  else above ++ [last]

def rustModuleFile (root : Text) (segments : List Text) (files : FileSet) : Option Text :=
  let candidates :=
    if segments.isEmpty then [Path.joinAll [root, "lib.rs"], Path.joinAll [root, "main.rs"]]
    else [Path.joinAll (root :: segments) ++ ofString ".rs", Path.joinAll (root :: segments ++ [ofString "mod.rs"])]
  candidates.find? files.has

/-- The longest prefix of a module path that has a file, so that items of inline modules land there. -/
def longestRustPrefix (root : Text) (files : FileSet) (segments : List Text) : List Text :=
  ((List.range (segments.length + 1)).reverse.findSome? fun n =>
    rustModuleFile root (segments.take n) files).toList

def rust (specifier source : Text) (files : FileSet) : List Text :=
  let segments := (splitText "::" specifier).filter fun s => !s.isEmpty
  let root := crateRoot source files
  let current := rustModulePath source root
  match segments with
  | [] => []
  | first :: rest =>
    if first == ("crate" : Text) then longestRustPrefix root files rest
    else if first == ("self" : Text) then longestRustPrefix root files (current ++ rest)
    else if first == ("super" : Text) then
      let ups := (segments.takeWhile fun s => s == ("super" : Text)).length
      if ups > current.length then []
      else longestRustPrefix root files (current.take (current.length - ups) ++ segments.drop ups)
    else if (rustModuleFile root (current ++ [first]) files).isSome then
      longestRustPrefix root files (current ++ segments)
    else []

end Rust

section Java

def endsInSegments (path suffix : Text) : Bool := path == suffix || endsWith path (Path.slash :: suffix)

def javaPackage (name : Text) (files : FileSet) : List Text :=
  (files.directories.filter fun dir => endsInSegments dir name).flatMap fun dir =>
    (files.inDirectory dir).filter fun f => endsWith f ".java"

/-- The first file whose path ends in those segments, shortened from the right until there is one. -/
def javaClass (segments : List Text) (files : FileSet) : List Text :=
  let all := files.directories.flatMap files.inDirectory
  ((List.range segments.length).reverse.findSome? fun n =>
    let suffix := join [Path.slash] (segments.take (n + 1)) ++ ofString ".java"
    all.find? fun f => endsInSegments f suffix).toList

/-- A wildcard names a package if there is one. -/
def java (specifier : Text) (wildcard : Bool) (files : FileSet) : List Text :=
  let path := specifier.map fun u => if u == Path.dot then Path.slash else u
  let package := if wildcard then javaPackage path files else []
  if package.isEmpty then javaClass (splitOn Path.slash path) files else package

end Java

section Go

def goFiles (files : FileSet) (dir : Text) : List Text :=
  (files.inDirectory dir).filter fun f => endsWith f ".go"

/-- Every file of the longest package directory in which the specifier ends. -/
def go (specifier : Text) (files : FileSet) : List Text :=
  let packages := files.directories.filter fun dir =>
    dir != ("." : Text) && endsInSegments specifier dir && !(goFiles files dir).isEmpty
  let longest := packages.foldl longer none
  match longest with
  | some dir => goFiles files dir
  | none => []
where
  longer (best : Option Text) (dir : Text) : Option Text :=
    match best with
    | some b => if dir.length > b.length then some dir else best
    | none => some dir

end Go

def find (request : ModuleRequest) (source language : Text) (files : FileSet) : List Text :=
  if language == ("typescript" : Text) || language == ("javascript" : Text) then
    script request.specifier source files
  else if language == ("python" : Text) then python request.specifier source files
  else if language == ("rust" : Text) then rust request.specifier source files
  else if language == ("java" : Text) then java request.specifier request.wildcard files
  else if language == ("go" : Text) then go request.specifier files
  else []

end ModuleTarget
end AnnotationIndex
