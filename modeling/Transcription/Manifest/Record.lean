/-
Transcription.Manifest.Record — the records of a manifest file.

A record names its kind and carries the fields of that kind. Fields that
are not known are passed over, a field with a default may be missing, and
the values of fields are taken as they are. A manifest carries records in
turn.
-/
import Transcription.Json.Printer
import Transcription.Json.Quoted
import Transcription.Json.Reader

namespace Transcription

/-- The kinds of records: segments, operations and whole manifests. -/
inductive RecordKind where
  | structural
  | word
  | punctuation
  | lineBreak
  | pageBreak
  | handShift
  | whitespace
  | keep
  | modify
  | insert
  | delete
  | manifest
  deriving DecidableEq, Repr

namespace RecordKind

/-- All kinds. -/
def all : List RecordKind :=
  [.structural, .word, .punctuation, .lineBreak, .pageBreak, .handShift, .whitespace, .keep,
    .modify, .insert, .delete, .manifest]

/-- The name of a kind in a file. -/
def name : RecordKind → Text
  | .structural => "Structural"
  | .word => "Word"
  | .punctuation => "Punctuation"
  | .lineBreak => "LineBreak"
  | .pageBreak => "PageBreak"
  | .handShift => "HandShift"
  | .whitespace => "Whitespace"
  | .keep => "Keep"
  | .modify => "Modify"
  | .insert => "Insert"
  | .delete => "Delete"
  | .manifest => "ImportManifest"

/-- Whether records of a kind are operations. -/
def isPatch : RecordKind → Bool
  | .keep | .modify | .insert | .delete => true
  | _ => false

/-- The title of a kind in messages. -/
def title (kind : RecordKind) : Text :=
  if kind.isPatch ∨ kind = .manifest then kind.name else kind.name ++ "Segment"

/-- The kind with a name. -/
def ofName? (name : Text) : Option RecordKind :=
  all.find? fun kind => kind.name = name

/-- The fields of a kind in their order, each with its default if it has
one. The records that a manifest carries are no field. -/
def fields : RecordKind → List (Text × Option Json)
  | .structural => [("id", none), ("xml", none)]
  | .word =>
      [("id", none), ("original_xml", none), ("dsl", none), ("attributes", some (.object [])),
        ("has_inline_lb", some (.bool false))]
  | .punctuation => [("id", none), ("original_xml", none), ("dsl", none)]
  | .lineBreak | .pageBreak | .handShift =>
      [("id", none), ("attributes", some (.object []))]
  | .whitespace => [("id", none), ("content", none)]
  | .keep | .delete => [("segment_id", none)]
  | .modify => [("segment_id", none), ("new_dsl", none)]
  | .insert => [("dsl", none)]
  | .manifest =>
      [("is_multilevel", some (.bool false)), ("preamble", some (.string [])),
        ("body_open_tag", some (.string "<body>")), ("postamble", some (.string []))]

end RecordKind

/-- A record of a manifest file: its kind, its fields, and the records it
carries. -/
inductive Record where
  | mk (kind : RecordKind) (fields : Table Json) (segments : List Record)
  deriving Repr

/-- Why a manifest file cannot be read. -/
inductive RecordFault where
  | unreadable
  | notAnObject (found : Json)
  | noType
  /-- The type is a list or an object, which can be no name. -/
  | typeNotAName
  | unknownType (type : Json)
  | segmentsNotAList (kind : RecordKind)
  | missing (kind : RecordKind) (names : List Text)
  | patchesNotAList
  | notAPatch (kind : RecordKind)

namespace RecordFault

/-- A message with the type it is about, unless that is empty. -/
def withType (message : Text) (type : Json) : Text :=
  if type.isGiven then message ++ " (_type=" ++ type.quoted ++ ")" else message

/-- The names of a list in quotation marks, joined as in a sentence. -/
def enumerate (names : List Text) : Text :=
  let quoted := names.map fun n => '\x27' :: n ++ ['\x27']
  match quoted.reverse with
  | [] => []
  | [a] => a
  | [b, a] => a ++ " and " ++ b
  | last :: init => Text.join ", " init.reverse ++ ", and " ++ last

/-- The message about missing fields of a kind. -/
def missingMessage (kind : RecordKind) (names : List Text) : Text :=
  let noun : Text := if names.length = 1 then "argument" else "arguments"
  kind.title ++ ".__init__() missing " ++ Text.ofNat names.length ++ " required positional "
    ++ noun ++ ": " ++ enumerate names

/-- The text of a fault, for those that have one. -/
def message : RecordFault → Option Text
  | .unreadable => some "Invalid JSON"
  | .notAnObject found => some ("Expected an object, got " ++ found.kindWord)
  | .noType => some "Missing '_type' field"
  | .typeNotAName => none
  | .unknownType type => some (withType "Unknown type" type)
  | .segmentsNotAList kind => some (withType "'segments' must be a list" (.string kind.name))
  | .missing kind names => some (withType (missingMessage kind names) (.string kind.name))
  | .patchesNotAList => some "Expected a list of patch operations"
  | .notAPatch kind => some (withType "Not a patch operation" (.string kind.title))

end RecordFault

namespace Record

/-- The kind of a record. -/
def kind : Record → RecordKind
  | .mk kind _ _ => kind

/-- The fields of a record. -/
def fields : Record → Table Json
  | .mk _ fields _ => fields

/-- The records that a record carries. -/
def segments : Record → List Record
  | .mk _ _ segments => segments

/-! ## 1. Writing -/

mutual

/-- A record as a data value. -/
def toJson : Record → Json
  | .mk kind fields segments =>
      let carried := toJsons segments
      .object (("_type", .string kind.name)
        :: if kind = .manifest then ("segments", .array carried) :: fields else fields)

/-- Records as data values. -/
def toJsons : List Record → List Json
  | [] => []
  | r :: rs => toJson r :: toJsons rs

end

/-- A record as text, its fields in the order of their names. -/
def write (indent : Option Nat) (r : Record) : Text :=
  r.toJson.sorted.write indent

/-- A list of records as text. -/
def writeAll (indent : Option Nat) (rs : List Record) : Text :=
  (Json.sorted (.array (toJsons rs))).write indent

/-! ## 2. Reading -/

/-- The kind that a type names. -/
def kindOf : Json → Except RecordFault RecordKind
  | .null => .error .noType
  | .array _ | .object _ => .error .typeNotAName
  | .string t =>
      match RecordKind.ofName? t with
      | some kind => .ok kind
      | none => .error (.unknownType (.string t))
  | type => .error (.unknownType type)

/-- The fields of a kind with their values; the names of those that have
none. -/
def takeFields (members : Table Json) :
    List (Text × Option Json) → Table Json × List Text
  | [] => ([], [])
  | (name, fallback) :: rest =>
      let (taken, missing) := takeFields members rest
      match (members.get? name).or fallback with
      | some value => ((name, value) :: taken, missing)
      | none => (taken, name :: missing)

/-- The record of a kind with its members, and the records it carries if
any are given. -/
def build (kind : RecordKind) (members : Table Json)
    (carried : Option (Except RecordFault (List Record))) : Except RecordFault Record := do
  let (fields, missing) := takeFields members kind.fields
  if kind = .manifest then
    match carried with
    | some segments =>
        let segments ← segments
        if missing.isEmpty then return .mk kind fields segments
        else throw (.missing kind missing)
    | none => throw (.missing kind ("segments" :: missing))
  else if missing.isEmpty then return .mk kind fields []
  else throw (.missing kind missing)

mutual

/-- The record of a data value. -/
def ofJson : Json → Except RecordFault Record
  | .object members => do
      let kind ← kindOf ((Table.get? members "_type").getD .null)
      build kind members (carriedBy kind members)
  | found => .error (.notAnObject found)

/-- The records under the key for them, if it is there. -/
def carriedBy (kind : RecordKind) : List (Text × Json) → Option (Except RecordFault (List Record))
  | [] => none
  | (key, value) :: rest =>
      if key = ("segments" : Text) then
        match value with
        | .array items => some (ofJsons items)
        | _ => some (.error (.segmentsNotAList kind))
      else carriedBy kind rest

/-- The records of data values, up to the first fault. -/
def ofJsons : List Json → Except RecordFault (List Record)
  | [] => .ok []
  | j :: js => do
      let r ← ofJson j
      let rs ← ofJsons js
      return r :: rs

end

/-- The record that a text writes. -/
def read (t : Text) : Except RecordFault Record :=
  match Json.read? t with
  | some j => ofJson j
  | none => .error .unreadable

/-- The operations of data values; each one must be an operation before the
next is read. -/
def patchesOf : List Json → Except RecordFault (List Record)
  | [] => .ok []
  | j :: js => do
      let r ← ofJson j
      if r.kind.isPatch then
        let rs ← patchesOf js
        return r :: rs
      else throw (.notAPatch r.kind)

/-- The list of operations that a text writes. -/
def readPatches (t : Text) : Except RecordFault (List Record) :=
  match Json.read? t with
  | some (.array items) => patchesOf items
  | some _ => .error .patchesNotAList
  | none => .error .unreadable

end Record

end Transcription
