import AnnotationIndex.Link.ExportSearch

/-!
A session of searches over one project. The files that requests name are kept, and so are complete
answers; an answer that passed over a name holds only for the way that led to it and is not kept.
-/
namespace AnnotationIndex
open Text

inductive Memo where
  | symbol (key : Text) (value : Option Text)
  | modules (key : Text) (targets : List Text)

abbrev LinkSession := List Memo

namespace LinkSession

def symbol? (s : LinkSession) (key : Text) : Option (Option Text) :=
  s.findSome? fun
    | .symbol k value => if k == key then some value else none
    | .modules _ _ => none

def modules? (s : LinkSession) (key : Text) : Option (List Text) :=
  s.findSome? fun
    | .symbol _ _ => none
    | .modules k targets => if k == key then some targets else none

def requestText (request : ModuleRequest) (source : Text) : Text :=
  source ++ separator :: (request.specifier ++ separator :: (if request.wildcard then "*" else []))

def targets (t : LinkTables) (request : ModuleRequest) (source : Text) : StateM LinkSession (List Text) := do
  match (← get).modules? (requestText request source) with
  | some targets => return targets
  | none =>
    let targets := t.targets request source
    modify (.modules (requestText request source) targets :: ·)
    return targets

def keep (k : ExportKey) (l : Lookup) : StateM LinkSession Unit :=
  if l.complete then modify (.symbol k.text l.value :: ·) else return ()

/-- As `LinkTables.search`, with the answers of the session. -/
def search (t : LinkTables) : Nat → List Text → ExportKey → StateM LinkSession Lookup
  | 0, _, _ => return ⟨none, false⟩
  | fuel + 1, visiting, k => do
    match (← get).symbol? k.text with
    | some value => return ⟨value, true⟩
    | none =>
      if visiting.elem k.text then return ⟨none, false⟩
      else
        let l ← (t.inquiry k).run (targets t) fun next => search t fuel (k.text :: visiting) next
        keep k l
        return l

def resolveExport (t : LinkTables) (path name : Text) : StateM LinkSession (Option Text) := do
  return (← search t t.searchBound [] ⟨path, name⟩).value

def resolveImported (t : LinkTables) (path : Text) (request : ModuleRequest) (name : Text) :
    StateM LinkSession (Option Text) := do
  return (← (Inquiry.imported path request name).run (targets t) (search t t.searchBound [])).value

end LinkSession
end AnnotationIndex
