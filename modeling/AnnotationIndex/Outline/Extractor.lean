import AnnotationIndex.Comment.Syntax
import AnnotationIndex.Outline.Go
import AnnotationIndex.Outline.Java
import AnnotationIndex.Outline.Python
import AnnotationIndex.Outline.Rust
import AnnotationIndex.Outline.Script

/-!
Extractors: how the files of a language are read. Which one reads a file is decided by its extension.
-/
namespace AnnotationIndex
open Text

structure Extractor where
  id : Text
  /-- The extensions of the files that it reads, in lower case and with their point. -/
  extensions : List Text
  comments : CommentSyntax
  /-- The outline of a file with that path and text. -/
  outline : Text → Text → Except OutlineFault Outline

namespace Extractor

def script : Extractor :=
  { id := "typescript"
    extensions := List.map ofString [".ts", ".tsx", ".mts", ".cts", ".js", ".jsx", ".mjs", ".cjs"]
    comments := .slashes
    outline := Script.outline }

def python : Extractor :=
  { id := "python"
    extensions := List.map ofString [".py", ".pyi", ".pyw"]
    comments := .hash
    outline := fun path text => .ok (Python.outline path text) }

def go : Extractor :=
  { id := "go", extensions := [".go"], comments := .slashes, outline := fun _ text => .ok (Go.outline text) }

def rust : Extractor :=
  { id := "rust", extensions := [".rs"], comments := .slashes, outline := fun _ text => .ok (Rust.outline text) }

def java : Extractor :=
  { id := "java", extensions := [".java"], comments := .slashes
    outline := fun _ text => .ok (Java.outline text) }

def builtIn : List Extractor := [script, python, go, rust, java]

/-- The extractor that claims an extension, whatever its case; of several the last. -/
def forExtension? (extractors : List Extractor) (extension : Text) : Option Extractor :=
  extractors.reverse.find? fun e => (e.extensions.map lower).elem (lower extension)

def forFile? (extractors : List Extractor) (path : Text) : Option Extractor :=
  forExtension? extractors (Path.extension path)

def failing (path : Text) (comments : CommentSyntax) (reason : Text) : Extractor :=
  { id := "failing", extensions := [Path.extension path], comments, outline := fun _ _ => .error (.other reason) }

end Extractor
end AnnotationIndex
