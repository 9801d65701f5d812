import AnnotationIndex.Text.Unit

/-!
White space and line terminators. A blank is a character that trimming removes and that separates
words; a line terminator is what "the rest of the line" stops at. Both are finite sets of code units.
-/
namespace AnnotationIndex.Text

/- The blanks: the five ASCII controls, the space separators of Unicode, the byte order mark and the
two line separators. U+0085 and U+180E are not among them. -/
def isBlank (u : UInt16) : Bool :=
  (0x09 ≤ u && u ≤ 0x0D) || u == 0x20 || u == 0xA0 || u == 0x1680 || (0x2000 ≤ u && u ≤ 0x200A) ||
    u == 0x2028 || u == 0x2029 || u == 0x202F || u == 0x205F || u == 0x3000 || u == 0xFEFF

def isLineTerminator (u : UInt16) : Bool :=
  u == 0x0A || u == 0x0D || u == 0x2028 || u == 0x2029

def trimStart (t : Text) : Text := t.dropWhile isBlank
def trimEnd (t : Text) : Text := (t.reverse.dropWhile isBlank).reverse
def trim (t : Text) : Text := trimEnd (trimStart t)

def collapseBlanks : Text → Text
  | [] => []
  | u :: rest =>
    match collapseBlanks rest with
    | [] => if isBlank u then [0x20] else [u]
    | v :: more =>
      if isBlank u then (if v == 0x20 then v :: more else 0x20 :: v :: more) else u :: v :: more

def indentWidth : Text → Nat
  | [] => 0
  | u :: rest =>
    if u == 0x20 then indentWidth rest + 1 else if u == 0x09 then indentWidth rest + 4 else 0

end AnnotationIndex.Text
