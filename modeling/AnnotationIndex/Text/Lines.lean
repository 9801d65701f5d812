import AnnotationIndex.Text.Search

/-!
Lines of a text, as every line number of the index counts them: separated by line feeds, a carriage
return before the separator dropped, and no empty line after a final line feed.
-/
namespace AnnotationIndex.Text

def dropReturn (line : Text) : Text := dropTail [0x0D] line

def dropLastEmpty : List Text → List Text
  | [] => []
  | [t] => if t.isEmpty then [] else [t]
  | t :: u :: rest => t :: dropLastEmpty (u :: rest)

def lines (t : Text) : List Text :=
  if t.isEmpty then [] else dropLastEmpty ((splitOn 0x0A t).map dropReturn)

def lineCount (t : Text) : Nat := (lines t).length

end AnnotationIndex.Text
