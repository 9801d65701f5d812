import AnnotationIndex.Text.Pattern
import AnnotationIndex.Text.Search

/-!
Use trees: paths that share their beginnings, written with braces, and the leaves that they stand for.
-/
namespace AnnotationIndex
open Text

structure UseLeaf where
  path : List Text
  «alias» : Option Text
  glob : Bool
  deriving DecidableEq

namespace UseTree

def segments (t : Text) : List Text :=
  ((splitText "::" t).map trim).filter fun s => !s.isEmpty

/- Parts between the commas outside braces; `current` holds the part so far in reverse. -/
def partsFrom (depth : Int) (current : Text) : Text → List Text
  | [] =>
    let part := trim current.reverse
    if part.isEmpty then [] else [part]
  | u :: rest =>
    let depth := if u == unit '\x7b' then depth + 1 else if u == unit '\x7d' then depth - 1 else depth
    if u == unit ',' && depth = 0 then
      let part := trim current.reverse
      (if part.isEmpty then [] else [part]) ++ partsFrom depth [] rest
    else partsFrom depth (u :: current) rest

def parts (t : Text) : List Text := partsFrom 0 [] t

def aliasClause : Pattern :=
  .mark 1 (.lazyRun fun u => !isLineTerminator u) ++ .blanks1 ++ "as" ++ .blanks1 ++ .mark 2 .word ++ .atEnd

def leaf (before : List Text) (t : Text) : List UseLeaf :=
  let clause := aliasClause.start t
  let path := segments ((clause.map (·.mark 1)).getD t)
  if path.getLast? == some "*" then [⟨before ++ path.dropLast, none, true⟩]
  else if path.isEmpty then []
  else [⟨before ++ path, clause.map (·.mark 2), false⟩]

/- The fuel bounds the length of the text: what stands between braces is shorter. -/
def leavesFrom : Nat → List Text → Text → List UseLeaf
  | 0, _, _ => []
  | fuel + 1, before, t =>
    let t := dropHead "::" (trim t)
    match find? [unit '\x7b'] t with
    | none => leaf before t
    | some i =>
      let inner :=
        match findLast? [unit '\x7d'] t with
        | some j => (t.take j).drop (i + 1)
        | none => t.drop (i + 1)
      (parts inner).flatMap (leavesFrom fuel (before ++ segments (t.take i)))

def leaves (t : Text) : List UseLeaf := leavesFrom (t.length + 1) [] t

end UseTree
end AnnotationIndex
