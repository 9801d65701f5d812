import AnnotationIndex.CommandLine.Usage

/-!
Help pages. Terms stand in a column and their descriptions beside them, set into lines of limited length.
-/
namespace AnnotationIndex
open Text

structure HelpItem where
  term : Text
  description : Text

structure HelpPage where
  usage : Text
  description : Text
  sections : List (Text × List HelpItem)

namespace HelpItem

def ofOption (o : OptionUsage) : HelpItem :=
  let standard : Text := (o.standard.map fun t => ofString " (default: \"" ++ t ++ "\")").getD []
  ⟨o.flags, o.description ++ standard⟩

def ofArgument (a : ArgumentUsage) : HelpItem := ⟨a.name, a.description⟩

def ofCommand (c : Command) : HelpItem := ⟨c.name ++ " " ++ c.usage, c.description⟩

def helpCommand : HelpItem := ⟨Program.helpName ++ " [command]", OptionUsage.help.description⟩

end HelpItem

namespace HelpPage

def width : Nat := 80

def gap : Nat := 2

def minColumn : Nat := 40

/- Words on lines of at most `limit` units; a longer word has a line to itself. -/
def fillFrom (limit : Nat) : (line : Text) → List Text → List Text
  | line, [] => [line]
  | line, w :: ws =>
    if line.length + 1 + w.length ≤ limit then fillFrom limit (line ++ (0x20 :: w)) ws
    else line :: fillFrom limit w ws

def fill (limit : Nat) (t : Text) : List Text :=
  match splitOn 0x20 t with
  | [] => []
  | w :: ws => fillFrom limit w ws

/-- An item with its description in a column; the last unit of a line stays free. -/
def itemText (termWidth : Nat) (i : HelpItem) : Text :=
  let start := termWidth + gap
  let column := width - gap - start
  let described := if column < minColumn then [i.description] else fill (column - 1) i.description
  let margin := spaces (gap + start)
  spaces gap ++ padEnd start i.term ++ join (0x0A :: margin) described

def sectionText (termWidth : Nat) (s : Text × List HelpItem) : List Text :=
  if s.2.isEmpty then []
  else [s.1 ++ ":", join [0x0A] (s.2.map (itemText termWidth)), []]

def text (p : HelpPage) : Text :=
  let termWidth := ((p.sections.flatMap (·.2)).map (·.term.length)).foldl max 0
  join [0x0A] (["Usage: " ++ p.usage, [], join [0x0A] (fill (width - 1) p.description), []] ++
    p.sections.flatMap (sectionText termWidth)).dropLast

def ofCommand (c : Command) : HelpPage where
  usage := Program.name ++ " " ++ c.name ++ " " ++ c.usage
  description := c.description
  sections := [
    ("Arguments", c.arguments.map HelpItem.ofArgument),
    ("Options", c.shownOptions.map HelpItem.ofOption)]

def ofProgram : HelpPage where
  usage := Program.name ++ " " ++ Program.usage
  description := Program.description
  sections := [
    ("Options", Program.shownOptions.map HelpItem.ofOption),
    ("Commands", Command.all.map HelpItem.ofCommand ++ [HelpItem.helpCommand])]

end HelpPage
end AnnotationIndex
