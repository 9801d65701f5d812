import AnnotationIndex.Path
import AnnotationIndex.Table
import AnnotationIndex.Text.Case

/-!
A registry of extractors that are made when a file first asks for them. An entry has at most one
instance at a time; the instances of one name are counted over the registry's whole life.
-/
namespace AnnotationIndex
open Text

structure ExtractorInstance where
  id : Text
  number : Nat
  deriving DecidableEq

inductive RegistryEvent where
  | made (i : ExtractorInstance)
  | disposed (i : ExtractorInstance)
  deriving DecidableEq

structure ExtractorRegistry where
  /-- The names in the order of their first registration, with the number of a live instance. -/
  entries : List (Text × Option Nat)
  /-- The name that claimed an extension last. -/
  claims : List (Text × Text)
  /-- How many instances a name has had. -/
  counts : List (Text × Nat)

namespace ExtractorRegistry

def empty : ExtractorRegistry := ⟨[], [], []⟩

def put {α : Type} (k : Text) (v : α) : List (Text × α) → List (Text × α)
  | [] => [(k, v)]
  | e :: rest => if e.1 == k then (k, v) :: rest else e :: put k v rest

/-- A name registered anew forgets its instance. -/
def register (r : ExtractorRegistry) (id : Text) (extensions : List Text) : ExtractorRegistry :=
  { r with
    entries := put id none r.entries
    claims := extensions.foldl (fun cs e => put (lower e) id cs) r.claims }

/-- The instance for an extension, made if there is none yet. A claim by the empty name counts for none. -/
def forExtension (r : ExtractorRegistry) (extension : Text) :
    Option ExtractorInstance × List RegistryEvent × ExtractorRegistry :=
  match r.claims.lookup (lower extension) with
  | none => (none, [], r)
  | some id =>
    if id.isEmpty then (none, [], r)
    else
      match r.entries.lookup id with
      | none => (none, [], r)
      | some (some n) => (some ⟨id, n⟩, [], r)
      | some none =>
        let n := (r.counts.lookup id).getD 0 + 1
        (some ⟨id, n⟩, [.made ⟨id, n⟩], { r with entries := put id (some n) r.entries, counts := put id n r.counts })

def forFile (r : ExtractorRegistry) (path : Text) :
    Option ExtractorInstance × List RegistryEvent × ExtractorRegistry :=
  r.forExtension (Path.extension path)

def disposeAll (r : ExtractorRegistry) : List RegistryEvent × ExtractorRegistry :=
  (r.entries.filterMap fun (id, n) => n.map fun n => .disposed ⟨id, n⟩,
    { r with entries := r.entries.map fun (id, _) => (id, none) })

end ExtractorRegistry
end AnnotationIndex
