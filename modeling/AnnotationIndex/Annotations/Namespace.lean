import AnnotationIndex.Annotations.Basic
import AnnotationIndex.Text.Pattern

/-!
The known namespaces: the shape of their parameters, where their annotations belong, whether every
occurrence is kept, and the directive that stands in when none is written. A namespace that is not
known is accepted only if it is custom: it starts with `x-` or it is configured.
-/
namespace AnnotationIndex
open Text

inductive ParameterShape where
  | lock
  | ref
  | hack
  | deprecated
  | note
  | name (label : Text)
  | list
  | text
  | stability
  | custom
  deriving DecidableEq

/-- The directive of an annotation that is written without one. -/
inductive StandIn where
  | lockLevel
  | refTarget
  | fixed (text : Text)
  deriving DecidableEq

structure NamespaceRule where
  shape : ParameterShape
  /-- Annotations belong to the file even inside a symbol's block. -/
  fileOnly : Bool
  /-- Annotations accumulate rather than replace each other. -/
  multiValued : Bool
  /-- Annotations are listed among the file's inline markers. -/
  inline : Bool
  /-- Present where the namespace requires a directive. -/
  standIn : Option StandIn
  deriving DecidableEq

inductive PayloadFault where
  | lockMissing
  | lockUnknown (level : Text)
  | refMissing
  | nameMissing (label : Text)
  | listMissing
  | textMissing
  | expiry (date : Text)
  | stability
  deriving DecidableEq

def PayloadFault.message : PayloadFault → Text
  | lockMissing => "lock requires a level"
  | lockUnknown level =>
    "unknown lock level \"" ++ level ++ "\" (expected one of " ++
      join ", " (LockLevel.all.map LockLevel.name) ++ ")"
  | refMissing => "ref requires a target"
  | nameMissing label => label ++ " requires a name"
  | listMissing => "expected a comma-separated list of names"
  | textMissing => "expected text"
  | expiry date => "invalid expiry date \"" ++ date ++ "\""
  | stability => "stability requires one of " ++ join ", " (Stability.all.map Stability.name)

namespace ParameterShape

def present? (t : Text) : Option Text := if t.isEmpty then none else some t

def readLock (parameters : List Text) : Except PayloadFault Payload :=
  match parameters.head? with
  | none => .error .lockMissing
  | some level =>
    match LockLevel.ofName? level with
    | some l => .ok (.lock l)
    | none => .error (.lockUnknown level)

/- One quote is taken off each end of a list item. -/
def dropQuotes (t : Text) : Text := dropTail [unit '"'] (dropHead [unit '"'] t)

def readList (value : Text) : Except PayloadFault Payload :=
  let names := ((splitOn (unit ',') value).map fun part => dropQuotes (trim part)).filter fun n => !n.isEmpty
  if names.isEmpty then .error .listMissing else .ok (.list names)

def expiryDate : Pattern :=
  let d := Pattern.one isDigit
  d ++ d ++ d ++ d ++ "-" ++ d ++ d ++ "-" ++ d ++ d

/- The last `expires=` and the last `ticket=` count; all other words form the reason. -/
def readHack (parameters : List Text) : Except PayloadFault Payload :=
  let keyed (key : Text) := (parameters.filter fun p => startsWith p key).getLast?.map (·.drop key.length)
  let expires := keyed "expires="
  let ticket := keyed "ticket="
  let reason := parameters.filter fun p => !startsWith p "expires=" && !startsWith p "ticket="
  let payload := Payload.hack expires ticket (if reason.isEmpty then none else some (join " " reason))
  match expires with
  | some date => if expiryDate.starts date then .ok payload else .error (.expiry date)
  | none => .ok payload

def read (shape : ParameterShape) (parameters : List Text) (value directive : Text) :
    Except PayloadFault Payload :=
  match shape with
  | lock => readLock parameters
  | ref =>
    match parameters.head?.bind present? with
    | some target => .ok (.ref target)
    | none => .error .refMissing
  | hack => readHack parameters
  | deprecated => .ok (.deprecated (present? value))
  | note => .ok (.note (present? value))
  | name label =>
    match present? value with
    | some n => .ok (.name n)
    | none => .error (.nameMissing label)
  | list => readList value
  | text =>
    match (present? value).or (present? directive) with
    | some t => .ok (.text t)
    | none => .error .textMissing
  | stability =>
    match parameters.head?.bind Stability.ofName? with
    | some level => .ok (.stability level)
    | none => .error .stability
  | custom => .ok (.custom value)

end ParameterShape

def StandIn.directive? : StandIn → Payload → Option Text
  | lockLevel, .lock level => some level.directive
  | refTarget, .ref target => some ("Consult " ++ target ++ " before making changes")
  | fixed t, _ => some t
  | _, _ => none

namespace NamespaceRule

def requiresDirective (r : NamespaceRule) : Bool := r.standIn.isSome

def noteRule (standIn : Text) : NamespaceRule := ⟨.note, false, true, true, some (.fixed standIn)⟩
def hintRule : NamespaceRule := ⟨.note, false, false, false, none⟩
def symbolRule : NamespaceRule := ⟨.name "symbol annotation", false, false, false, none⟩
def listRule : NamespaceRule := ⟨.list, false, true, false, none⟩
def fileRule (label : Text) : NamespaceRule := ⟨.name label, true, false, false, none⟩
def textRule : NamespaceRule := ⟨.text, false, false, false, none⟩

def known : List (Text × NamespaceRule) := [
  ("lock", ⟨.lock, false, false, false, some .lockLevel⟩),
  ("ref", ⟨.ref, false, true, false, some .refTarget⟩),
  ("hack", ⟨.hack, false, true, true, some (.fixed "Temporary workaround - check expiry before modifying")⟩),
  ("deprecated", ⟨.deprecated, false, false, false,
    some (.fixed "Do not use or extend - see replacement annotation")⟩),
  ("todo", noteRule "Pending work item - address before release"),
  ("fixme", noteRule "Known issue requiring fix - prioritize resolution"),
  ("critical", noteRule "Critical section - changes require extra review"),
  ("perf", noteRule "Performance-sensitive code - benchmark any changes"),
  ("ai-careful", hintRule),
  ("ai-readonly", hintRule),
  ("ai-avoid", hintRule),
  ("ai-no-modify", hintRule),
  ("module", fileRule "module"),
  ("owner", fileRule "owner"),
  ("layer", fileRule "layer"),
  ("domain", ⟨.name "domain", false, true, false, none⟩),
  ("summary", textRule),
  ("purpose", textRule),
  ("stability", ⟨.stability, false, false, false, none⟩),
  ("fn", symbolRule),
  ("function", symbolRule),
  ("class", symbolRule),
  ("method", symbolRule),
  ("symbol", symbolRule),
  ("calls", listRule),
  ("imports", listRule),
  ("depends", listRule)]

def customRule : NamespaceRule := ⟨.custom, false, true, false, none⟩

def isCustom (custom : List Text) (n : Text) : Bool := startsWith n "x-" || custom.elem n

def known? (n : Text) : Option NamespaceRule := known.lookup n

def find? (custom : List Text) (n : Text) : Option NamespaceRule :=
  (known? n).or (if isCustom custom n then some customRule else none)

end NamespaceRule

namespace AnnotationRecord

def isMultiValued (n : Text) : Bool := ((NamespaceRule.known? n).getD NamespaceRule.customRule).multiValued

def isFileOnly (n : Text) : Bool := ((NamespaceRule.known? n).map (·.fileOnly)).getD false

def isInline (n : Text) : Bool := ((NamespaceRule.known? n).map (·.inline)).getD false

end AnnotationRecord

/-- A namespace that no map can hold, since it is the name of something that every record has. -/
structure ReservedNamespace where
  nameSpace : Text
  deriving DecidableEq

namespace ReservedNamespace

def message (_ : ReservedNamespace) : Text := "existing.push is not a function"

end ReservedNamespace

namespace AnnotationMap

/- The last annotation of a namespace replaces those before it, unless they accumulate. -/
def add (m : AnnotationMap) (a : AnnotationRecord) : Except ReservedNamespace AnnotationMap :=
  let multiValued := AnnotationRecord.isMultiValued a.nameSpace
  match Table.get? m a.nameSpace with
  | some as => .ok (Table.put m a.nameSpace (if multiValued then as ++ [a] else [a]))
  | none =>
    if multiValued && Table.isInherited a.nameSpace then .error ⟨a.nameSpace⟩
    else .ok (Table.put m a.nameSpace [a])

def ofRecords (as : List AnnotationRecord) : Except ReservedNamespace AnnotationMap :=
  (AnnotationRecord.inLineOrder as).foldlM add []

end AnnotationMap
end AnnotationIndex
