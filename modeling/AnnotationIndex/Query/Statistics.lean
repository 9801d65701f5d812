import AnnotationIndex.Index.Basic
import AnnotationIndex.Text.Order

/-!
How large an index is, and how its files divide into locks and languages.
-/
namespace AnnotationIndex
open Text

structure ProjectStatistics where
  fileCount : Nat
  symbolCount : Nat
  lineCount : Int
  domainCount : Nat
  /-- How many files each level of lock has. -/
  lockCounts : LockLevel → Nat
  /-- How many files each language has. -/
  languages : Table Nat

namespace ProjectIndex

def languageCount (r : ProjectIndex) (language : Text) : Nat := r.files.values.countP fun f => f.language == language

def lockCount (r : ProjectIndex) (level : LockLevel) : Nat := r.files.values.countP fun f => f.constraint.level = level

def statistics (r : ProjectIndex) : ProjectStatistics where
  fileCount := r.files.length
  symbolCount := r.symbols.length
  lineCount := r.files.values.foldl (fun n f => n + f.lines) 0
  domainCount := r.domains.length
  lockCounts := r.lockCount
  languages := Table.ofList ((sortedSet (r.files.values.map (·.language))).map fun l => (l, r.languageCount l))

end ProjectIndex
end AnnotationIndex
