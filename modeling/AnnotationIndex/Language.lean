import AnnotationIndex.Path
import AnnotationIndex.Text.Case

/-!
The language of a file, by its extension in lower case.
-/
namespace AnnotationIndex
open Text

namespace Language

def byExtension : List (Text × Text) := [
  (".ts", "typescript"), (".tsx", "typescript"), (".mts", "typescript"), (".cts", "typescript"),
  (".js", "javascript"), (".jsx", "javascript"), (".mjs", "javascript"), (".cjs", "javascript"),
  (".py", "python"), (".pyi", "python"), (".pyw", "python"), (".go", "go"), (".rs", "rust"),
  (".java", "java"), (".kt", "kotlin"), (".kts", "kotlin"), (".c", "c"), (".h", "c"), (".cc", "cpp"),
  (".cpp", "cpp"), (".hpp", "cpp"), (".cs", "csharp"), (".rb", "ruby"), (".php", "php"),
  (".swift", "swift"), (".scala", "scala"), (".sh", "shell"), (".bash", "shell"), (".lua", "lua"),
  (".sql", "sql")]

def ofPath (path : Text) : Text := (byExtension.lookup (lower (Path.extension path))).getD "unknown"

end Language
end AnnotationIndex
