import AnnotationIndex.Configuration
import AnnotationIndex.Disk
import AnnotationIndex.Glob.Match
import AnnotationIndex.Membership.IgnoreRule

/-!
Which paths belong to a project: those that an include glob matches, no exclude glob matches and no rule of the ignore
file covers. The file of the index itself never belongs to it.
-/
namespace AnnotationIndex

structure ProjectFilter where
  cachePath : Text
  included : List Glob
  excluded : List Glob
  ignored : IgnoreRules

namespace ProjectFilter

def ofRules (c : Configuration) (rules : IgnoreRules) : ProjectFilter where
  cachePath := c.cachePath
  included := c.included.map Glob.ofText
  excluded := c.excluded.map Glob.ofText
  ignored := rules

/-- Whether a path belongs to the project. The ignore rules are only asked about paths that the globs accept. -/
def accepts (f : ProjectFilter) (path : Text) : Except IgnoreFault Bool :=
  if path == f.cachePath then .ok false
  else if !f.included.any (·.isMatch path) then .ok false
  else if f.excluded.any (·.isMatch path) then .ok false
  else (f.ignored.ignores path).map (!·)

end ProjectFilter

def IgnoreRules.load (disk : Disk) (root : Text) : Except DiskFault IgnoreRules := do
  match ← disk.read? (Path.joinAll [root, IgnoreRules.fileName]) with
  | some t => return IgnoreRules.ofText t
  | none => return IgnoreRules.ofLines []

end AnnotationIndex
