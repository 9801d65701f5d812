import AnnotationIndex.Annotations.Payload
import AnnotationIndex.LineSpan
import AnnotationIndex.Provenance.Basic
import AnnotationIndex.Text.Search

/-!
An annotation: the namespace and parameters of a directive line, the directive text with its
continuation lines, and its provenance.
-/
namespace AnnotationIndex

structure AnnotationRecord where
  nameSpace : Text
  subNamespace : Option Text
  parameters : List Text
  /-- The parameter text, without the quotes that surround the whole of it. -/
  value : Text
  directive : Text
  lineSpan : LineSpan
  provenance : Provenance
  payload : Payload
  /-- Whether the directive was filled in from the namespace. -/
  autoGenerated : Bool
  deriving DecidableEq

namespace AnnotationRecord

def sourceNamespaces : List Text :=
  ["source", "source-confidence", "source-reviewed", "source-id", "source-at"]

def isSource (nameSpace : Text) : Bool := sourceNamespaces.elem nameSpace

def inLineOrder (as : List AnnotationRecord) : List AnnotationRecord :=
  as.mergeSort fun a b => a.lineSpan.start ≤ b.lineSpan.start

def toJson (a : AnnotationRecord) : Json :=
  Json.fields [
    ("namespace", some (.str a.nameSpace)),
    ("subNamespace", a.subNamespace.map .str),
    ("parameters", some (Json.texts a.parameters)),
    ("value", some (.str a.value)),
    ("directive", some (.str a.directive)),
    ("lineSpan", some a.lineSpan.toJson),
    ("provenance", some a.provenance.toJson),
    ("payload", some a.payload.toJson),
    ("autoGenerated", if a.autoGenerated then some (.bool true) else none)]

end AnnotationRecord

abbrev AnnotationMap := Table (List AnnotationRecord)

namespace AnnotationMap

def toJson (m : AnnotationMap) : Json :=
  .obj (m.map fun e => (e.1, .arr (e.2.map AnnotationRecord.toJson)))

def annotations (m : AnnotationMap) : List AnnotationRecord := m.flatMap (·.2)

def ofNamespace (m : AnnotationMap) (n : Text) : List AnnotationRecord := (Table.get? m n).getD []

end AnnotationMap
end AnnotationIndex
