import AnnotationIndex.Link.Tables

/-!
Inquiries: searches for a name as sequences of questions. An inquiry asks which files a request names and
what is found under other names, and goes on from the answers; who answers is left open.
-/
namespace AnnotationIndex
open Text

structure ExportKey where
  path : Text
  name : Text
  deriving DecidableEq

def separator : UInt16 := 0

def ExportKey.text (k : ExportKey) : Text := k.path ++ separator :: k.name

/-- What is found under a name: a qualified name, `external`, or nothing. -/
structure Lookup where
  value : Option Text
  /-- Whether no name was passed over on the way. -/
  complete : Bool
  deriving DecidableEq

namespace Lookup

def nothing : Lookup := ⟨none, true⟩

def found (symbol : Text) : Lookup := ⟨some symbol, true⟩

def inside (l : Lookup) : Lookup := if l.value == some external then ⟨none, l.complete⟩ else l

end Lookup

inductive Inquiry where
  | answer (l : Lookup)
  /-- Which files does a request of a file name? -/
  | modules (request : ModuleRequest) (source : Text) (next : List Text → Inquiry)
  /-- What is found under a name? -/
  | name (k : ExportKey) (next : Lookup → Inquiry)

namespace Inquiry

def andThen : Inquiry → (Lookup → Inquiry) → Inquiry
  | answer l, f => f l
  | modules r s next, f => modules r s fun targets => (next targets).andThen f
  | name k next, f => name k fun l => (next l).andThen f

def orElse (q r : Inquiry) : Inquiry :=
  q.andThen fun l =>
    if l.value.isSome then answer l else r.andThen fun l' => answer ⟨l'.value, l.complete && l'.complete⟩

/-- The first answer with a value; it is complete if all answers up to it are. -/
def first {α : Type} (ask : α → Inquiry) : List α → Inquiry
  | [] => answer .nothing
  | a :: rest => (ask a).orElse (first ask rest)

def imported (path : Text) (request : ModuleRequest) (name : Text) : Inquiry :=
  modules request path fun targets =>
    match targets with
    | [] => answer (.found external)
    | targets => first (fun target => Inquiry.name ⟨target, name⟩ answer) targets

def eval (targets : ModuleRequest → Text → List Text) (found : ExportKey → Lookup) : Inquiry → Lookup
  | answer l => l
  | modules r s next => eval targets found (next (targets r s))
  | name k next => eval targets found (next (found k))

def run {m : Type → Type} [Monad m] (targets : ModuleRequest → Text → m (List Text))
    (found : ExportKey → m Lookup) : Inquiry → m Lookup
  | answer l => return l
  | modules r s next => do run targets found (next (← targets r s))
  | name k next => do run targets found (next (← found k))

end Inquiry
end AnnotationIndex
