import AnnotationIndex.Annotations.Namespace
import AnnotationIndex.Annotations.Parse
import AnnotationIndex.Comment.Line
import AnnotationIndex.Outline.Basic

/-!
Association: which declaration, or the file, an annotated block belongs to. A block goes to the
declaration that starts on the next line of code, else to the innermost one around it, else to the
file. Of several blocks for one declaration the closest is kept and the others are reported.
-/
namespace AnnotationIndex
open Text

inductive BlockTarget where
  | file
  /-- The block stands that many lines above the declaration. -/
  | symbol (index : Nat) (distance : Int)
  /-- The block stands inside the declaration. -/
  | body (index : Nat)
  deriving DecidableEq

structure InlineRecord where
  record : AnnotationRecord
  owner : Option Nat
  deriving DecidableEq

structure Association where
  fileRecords : List AnnotationRecord
  /-- One list for each declaration. -/
  symbolRecords : List (List AnnotationRecord)
  inline : List InlineRecord
  reports : List Diagnostic

namespace BlockTarget

/-- The first line of code in lines that start at `line`, and whether a blank line stands before it. -/
def nextCode (line : Int) (blank : Bool) : List LineKind → Option (Int × Bool)
  | [] => none
  | .code :: _ => some (line, blank)
  | .blank :: rest => nextCode (line + 1) true rest
  | _ :: rest => nextCode (line + 1) blank rest

/-- The innermost declaration around a line, the first of several. -/
def enclosing? (declarations : List Declaration) (line : Int) : Option Nat :=
  (declarations.zipIdx.foldl narrow none).map (·.2)
where
  narrow (best : Option (Declaration × Nat)) (d : Declaration × Nat) : Option (Declaration × Nat) :=
    if !d.1.lineSpan.contains line then best
    else
      match best with
      | none => some d
      | some b => if d.1.lineSpan.extent < b.1.lineSpan.extent then some d else best

/- A block with a blank line below it and no code above it heads the file, whatever follows. -/
def ofBlock (declarations : List Declaration) (kinds : List LineKind) (span : LineSpan) : BlockTarget :=
  let inside :=
    match enclosing? declarations span.start with
    | some i => .body i
    | none => .file
  match nextCode (span.stop + 1) false (kinds.drop span.stop.toNat) with
  | none => inside
  | some (line, blank) =>
    match declarations.findIdx? fun d => d.lineSpan.start == line with
    | none => inside
    | some i =>
      if blank && !(kinds.take (span.start - 1).toNat).elem .code then inside
      else .symbol i (line - span.stop)

end BlockTarget

namespace Association

abbrev Placed := AnnotatedBlock × BlockTarget

/-- Of the blocks for a declaration, the closest one and the first of several as close. -/
def winner? (blocks : List Placed) (index : Nat) : Option (Nat × AnnotatedBlock) :=
  (blocks.zipIdx.foldl closer none).map fun w => (w.1, w.2.1)
where
  closer (best : Option (Nat × AnnotatedBlock × Int)) (b : Placed × Nat) :
      Option (Nat × AnnotatedBlock × Int) :=
    match b.1.2 with
    | .symbol i distance =>
      if i ≠ index then best
      else
        match best with
        | none => some (b.2, b.1.1, distance)
        | some (_, _, d) => if distance < d then some (b.2, b.1.1, distance) else best
    | _ => best

def displaced (file : Text) (block winner : AnnotatedBlock) (name : Text) : Diagnostic :=
  Diagnostic.make .annotationDuplicate ⟨file, some block.lineSpan.start, some block.lineSpan.stop⟩
    ("Annotation block competes with the block at line " ++ (Number.ofInt winner.lineSpan.start).toText ++
      " for symbol " ++ name ++ "; the closer block is kept") none

def inlineOf (owner : Option Nat) (records : List AnnotationRecord) : List InlineRecord :=
  (records.filter fun r => AnnotationRecord.isInline r.nameSpace).map fun r => ⟨r, owner⟩

def share (file : Text) (declarations : List Declaration) (blocks : List Placed) (b : Placed × Nat) :
    List AnnotationRecord × List InlineRecord × List Diagnostic :=
  let records := b.1.1.annotations
  match b.1.2 with
  | .file => (records, inlineOf none records, [])
  | .body i =>
    (records.filter fun r => !AnnotationRecord.isInline r.nameSpace, inlineOf (some i) records, [])
  | .symbol i _ =>
    match winner? blocks i with
    | some (n, w) =>
      if n = b.2 then
        (records.filter fun r => AnnotationRecord.isFileOnly r.nameSpace, inlineOf (some i) records, [])
      else ([], [], [displaced file b.1.1 w ((declarations[i]?.map (·.name)).getD "?")])
    | none => ([], [], [])

def ofBlocks (file : Text) (blocks : List AnnotatedBlock) (declarations : List Declaration)
    (kinds : List LineKind) : Association :=
  let placed := blocks.map fun b => (b, BlockTarget.ofBlock declarations kinds b.lineSpan)
  let shares := placed.zipIdx.map (share file declarations placed)
  { fileRecords := shares.flatMap (·.1)
    symbolRecords := declarations.zipIdx.map fun (_, i) =>
      match winner? placed i with
      | some (_, w) => w.annotations.filter fun r => !AnnotationRecord.isFileOnly r.nameSpace
      | none => []
    inline := shares.flatMap (·.2.1)
    reports := shares.flatMap (·.2.2) }

def toJson (a : Association) : Json :=
  Json.fields [
    ("fileAnnotations", some (.arr (a.fileRecords.map AnnotationRecord.toJson))),
    ("symbolAnnotations", some (.arr (a.symbolRecords.map fun rs => .arr (rs.map AnnotationRecord.toJson)))),
    ("inline", some (.arr (a.inline.map fun i =>
      Json.fields [("record", some i.record.toJson),
        ("symbolIndex", some ((i.owner.map Json.ofNat).getD .null))]))),
    ("diagnostics", some (.arr (a.reports.map Diagnostic.toJson)))]

end Association
end AnnotationIndex
