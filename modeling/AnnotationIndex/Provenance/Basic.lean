import AnnotationIndex.Json.Value
import AnnotationIndex.Number.Decimal

/-!
Where an annotation comes from: written by hand, or generated with some confidence and perhaps
reviewed since. A generated annotation needs review until it is reviewed or its confidence reaches
the threshold.
-/
namespace AnnotationIndex

inductive Origin where
  | explicit
  | converted
  | heuristic
  | refined
  | inferred
  deriving DecidableEq, Repr

namespace Origin

def all : List Origin := [explicit, converted, heuristic, refined, inferred]

def name : Origin → Text
  | explicit => "explicit"
  | converted => "converted"
  | heuristic => "heuristic"
  | refined => "refined"
  | inferred => "inferred"

def ofName? (t : Text) : Option Origin := all.find? (·.name == t)

end Origin

structure Provenance where
  origin : Origin
  confidence : Option Number
  reviewed : Bool
  generationId : Option Text
  generatedAt : Option Text
  reviewedAt : Option Text
  needsReview : Bool
  deriving DecidableEq

namespace Provenance

def defaultThreshold : Number := Number.ofDecimal false 8 (-1)

def reviewNeeded (origin : Origin) (confidence : Option Number) (reviewed : Bool)
    (threshold : Number) : Bool :=
  if origin = .explicit || reviewed then false
  else
    match confidence with
    | none => true
    | some c => c.lt threshold

/-- The provenance of an annotation that no source line follows. -/
def byHand : Provenance := ⟨.explicit, none, false, none, none, none, false⟩

def toJson (p : Provenance) : Json :=
  Json.fields [
    ("origin", some (.str p.origin.name)),
    ("confidence", p.confidence.map .num),
    ("reviewed", some (.bool p.reviewed)),
    ("generationId", p.generationId.map .str),
    ("generatedAt", p.generatedAt.map .str),
    ("reviewedAt", p.reviewedAt.map .str),
    ("needsReview", some (.bool p.needsReview))]

end Provenance
end AnnotationIndex
