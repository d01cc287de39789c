/-
Transcription.Manifest.Basic — all that is needed to rebuild a document
after its body has been edited, and its records.
-/
import Transcription.Manifest.Record
import Transcription.Patch.Basic

namespace Transcription

/-- The segments of a body, whether its words carry the three levels, and
the text of the document before the body, its opening tag and the text
after it. -/
structure Manifest where
  segments : List Segment
  isMultilevel : Bool
  preamble : Text
  bodyOpenTag : Text
  postamble : Text
  deriving DecidableEq, Repr

/-- The document around new content of its body. -/
def Manifest.document (m : Manifest) (inner : Text) : Text :=
  m.preamble ++ m.bodyOpenTag ++ inner ++ "</body>" ++ m.postamble

/-! ## 1. Records -/

/-- The record of a kind with fields and nothing carried. -/
def Record.plain (kind : RecordKind) (fields : List (Text × Json)) : Record :=
  .mk kind fields []

/-- The kind of record for a milestone. -/
def Milestone.recordKind : Milestone → RecordKind
  | .line => .lineBreak
  | .page => .pageBreak
  | .hand => .handShift

/-- The record of a segment. -/
def Segment.toRecord : Segment → Record
  | .structural id xml => .plain .structural [("id", .int id), ("xml", .string xml)]
  | .word id xml dsl attrs breaksLine =>
      .plain .word [("id", .int id), ("original_xml", .string xml), ("dsl", .string dsl),
        ("attributes", .ofTexts attrs), ("has_inline_lb", .bool breaksLine)]
  | .punctuation id xml dsl =>
      .plain .punctuation
        [("id", .int id), ("original_xml", .string xml), ("dsl", .string dsl)]
  | .milestone kind id attrs =>
      .plain kind.recordKind [("id", .int id), ("attributes", .ofTexts attrs)]
  | .whitespace id content =>
      .plain .whitespace [("id", .int id), ("content", .string content)]

/-- The record of an operation. -/
def Patch.toRecord : Patch → Record
  | .keep id => .plain .keep [("segment_id", .int id)]
  | .modify id dsl => .plain .modify [("segment_id", .int id), ("new_dsl", .string dsl)]
  | .insert dsl => .plain .insert [("dsl", .string dsl)]
  | .delete id => .plain .delete [("segment_id", .int id)]

/-- The record of a manifest. -/
def Manifest.toRecord (m : Manifest) : Record :=
  .mk .manifest
    [("is_multilevel", .bool m.isMultilevel), ("preamble", .string m.preamble),
      ("body_open_tag", .string m.bodyOpenTag), ("postamble", .string m.postamble)]
    (m.segments.map Segment.toRecord)

/-! ## 2. Values of records -/

namespace Record

/-- An integer field. -/
def int? (r : Record) (name : Text) : Option Int :=
  (r.fields.get? name).bind Json.asInt?

/-- A text field. -/
def text? (r : Record) (name : Text) : Option Text :=
  (r.fields.get? name).bind Json.asString?

/-- A truth value field. -/
def bool? (r : Record) (name : Text) : Option Bool :=
  (r.fields.get? name).bind Json.asBool?

/-- A field with an object of strings. -/
def texts? (r : Record) (name : Text) : Option (Table Text) :=
  match r.fields.get? name with
  | some (.object members) => some (Json.texts (.object members))
  | _ => none

end Record

/-- The segment of a record, when its fields hold what they should. -/
def Segment.ofRecord? (r : Record) : Option Segment :=
  let milestone (kind : Milestone) : Option Segment := do
    return .milestone kind (← r.int? "id") (← r.texts? "attributes")
  match r.kind with
  | .structural => do return .structural (← r.int? "id") (← r.text? "xml")
  | .word => do
      return .word (← r.int? "id") (← r.text? "original_xml") (← r.text? "dsl")
        (← r.texts? "attributes") (← r.bool? "has_inline_lb")
  | .punctuation => do
      return .punctuation (← r.int? "id") (← r.text? "original_xml") (← r.text? "dsl")
  | .lineBreak => milestone .line
  | .pageBreak => milestone .page
  | .handShift => milestone .hand
  | .whitespace => do return .whitespace (← r.int? "id") (← r.text? "content")
  | _ => none

/-- The operation of a record, when its fields hold what they should. -/
def Patch.ofRecord? (r : Record) : Option Patch :=
  match r.kind with
  | .keep => do return .keep (← r.int? "segment_id")
  | .modify => do return .modify (← r.int? "segment_id") (← r.text? "new_dsl")
  | .insert => do return .insert (← r.text? "dsl")
  | .delete => do return .delete (← r.int? "segment_id")
  | _ => none

/-- The manifest of a record, when its fields hold what they should. -/
def Manifest.ofRecord? (r : Record) : Option Manifest :=
  match r.kind with
  | .manifest => do
      return { segments := ← r.segments.mapM Segment.ofRecord?
               isMultilevel := ← r.bool? "is_multilevel"
               preamble := ← r.text? "preamble"
               bodyOpenTag := ← r.text? "body_open_tag"
               postamble := ← r.text? "postamble" }
  | _ => none

/-! ## 3. Files -/

/-- A manifest as text. -/
def Manifest.write (indent : Option Nat) (m : Manifest) : Text :=
  m.toRecord.write indent

/-- The manifest that a text writes, when its fields hold what they
should. -/
def Manifest.read? (t : Text) : Option Manifest :=
  match Record.read t with
  | .ok r => Manifest.ofRecord? r
  | .error _ => none

end Transcription
