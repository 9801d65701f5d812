import AnnotationIndex.Annotations.Basic

/-!
Constraints: the lock of a scope with the annotations that bear on it. The last lock by line wins; a
file without a lock is normal, and a symbol without one takes the file's constraint.
-/
namespace AnnotationIndex

structure Constraint where
  level : LockLevel
  directive : Text
  contributing : List AnnotationRecord
  deriving DecidableEq

inductive ConstraintSource where
  | symbol
  | file
  deriving DecidableEq, Repr

namespace Constraint

/-- The lock that holds at a scope: the last one, with its directive or the level's. -/
def lastLock (ordered : List AnnotationRecord) : Option (LockLevel × Text) :=
  (ordered.filterMap fun a =>
    a.payload.level?.map fun level => (level, if a.directive.isEmpty then level.directive else a.directive)).getLast?

def own? (annotations : List AnnotationRecord) : Option Constraint :=
  let ordered := AnnotationRecord.inLineOrder annotations
  (lastLock ordered).map fun (level, directive) =>
    { level, directive
      contributing := ordered.filter fun a => a.payload.level?.isSome || !a.directive.isEmpty }

def ofFile (annotations : List AnnotationRecord) : Constraint :=
  (own? annotations).getD
    { level := .normal, directive := LockLevel.normal.directive
      contributing := (AnnotationRecord.inLineOrder annotations).filter fun a => !a.directive.isEmpty }

def effective (own : Option Constraint) (file : Constraint) : Constraint × ConstraintSource :=
  match own with
  | some c => (c, .symbol)
  | none => (file, .file)

def toJson (c : Constraint) : Json :=
  Json.fields [
    ("level", some (.str c.level.name)),
    ("directive", some (.str c.directive)),
    ("contributing", some (.arr (c.contributing.map AnnotationRecord.toJson)))]

end Constraint

def ConstraintSource.name : ConstraintSource → Text
  | symbol => "symbol"
  | file => "file"

end AnnotationIndex
