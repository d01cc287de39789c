/-
Transcription.Remark.Codec — remarks as data values.

The records in a remark are written and read by the names of their fields. The key of a field
is computed from its name (`camel`), in one place for writing (`present`) and in one for
reading (`given?`). Fields that are absent are left out. When a remark is read, its fields are
taken in their order; a word outside its vocabulary is a fault at once, while a missing field
is one only after all fields have been taken. Fields that are not known are passed over, and
null counts as absent.
-/
import Transcription.Remark.Basic
import Transcription.Json.Printer
import Transcription.Json.Quoted
import Transcription.Json.Reader

namespace Transcription.Remark

/-! ## 1. Keys -/

/-- Each run of letters with its first one as a capital and the others small. -/
def title (inRun : Bool) : Text → Text
  | [] => []
  | c :: t => (if inRun then c.toLower else c.toUpper) :: title c.isAlpha t

/-- The key of the field with a name: its words run together, those after the first one with
a capital. -/
def camel (name : Text) : Text :=
  match List.splitOn '_' name with
  | [] => []
  | first :: rest => first ++ rest.flatMap (title false)

example : camel "supplied_reason" = "suppliedReason" := by decide

/-! ## 2. Writing -/

/-- The names of the fields of a record in their order, each with its value if it has one. -/
abbrev Slots := List (Text × Option Json)

/-- The keys of fields. -/
def keysOf (slots : Slots) : List Text :=
  slots.map fun (name, _) => camel name

/-- The members for the fields that have a value. -/
def present (slots : Slots) : Table Json :=
  slots.filterMap fun (name, value) => value.map (camel name, ·)

/-- The word of a term as a data value. -/
def wordValue {α : Type} [Vocabulary α] (a : α) : Json :=
  .string (Vocabulary.word a)

/-- The tag of a target. -/
def Target.tag : Target → Text
  | .word _ => "word"
  | .characters _ _ _ => "char"
  | .span _ _ => "span"

/-- The fields of a target. -/
def Target.slots : Target → Slots
  | .word index => [("word_index", some (.int index))]
  | .characters index start stop =>
      [("word_index", some (.int index)), ("char_start", some (.int start)),
        ("char_end", some (.int stop))]
  | .span first last => [("start_word", some (.int first)), ("end_word", some (.int last))]

/-- A target as a data value. -/
def Target.toJson (t : Target) : Json :=
  .object (("type", .string t.tag) :: present t.slots)

/-- The fields of an observation. -/
def Observation.slots (o : Observation) : Slots :=
  [("observation_type", some (wordValue o.aspect)),
    ("unclear_reason", o.unclearReason.map wordValue), ("add_place", o.addPlace.map wordValue),
    ("add_type", o.addKind.map wordValue), ("hand", o.hand.map .string),
    ("del_rend", o.deletionManner.map wordValue),
    ("supplied_reason", o.suppliedReason.map wordValue), ("resp", o.resp.map .string),
    ("source", o.source.map .string), ("char_type", o.characterKind.map wordValue),
    ("char_size", o.characterSize.map .int), ("description", o.description.map .string),
    ("certainty", o.certainty.map .number)]

/-- The kind of a value. -/
def Value.kind : Value → Text
  | .headword _ _ _ _ => "lemma"
  | .semantic _ _ _ _ => "semantic"
  | .note _ _ => "note"
  | .paleographic _ _ _ => "paleographic"
  | .syntactic _ _ => "syntax"
  | .reference _ _ _ => "reference"
  | .custom _ _ => "custom"
  | .handbook _ => "menota-paleographic"

/-- The fields of a value. -/
def Value.slots : Value → Slots
  | .headword h msa normalized onpId =>
      [("lemma", some (.string h)), ("msa", some (.string msa)),
        ("normalized", normalized.map .string), ("onp_id", onpId.map .string)]
  | .semantic category subcategory identifier label =>
      [("category", some (.string category)), ("subcategory", subcategory.map .string),
        ("identifier", identifier.map .string), ("label", label.map .string)]
  | .note text category => [("text", some (.string text)), ("category", category.map .string)]
  | .paleographic feature description certainty =>
      [("observation_type", some (wordValue feature)), ("description", description.map .string),
        ("certainty", certainty.map .number)]
  | .syntactic role details =>
      [("function", some (.string role)), ("details", details.map .string)]
  | .reference target kind label =>
      [("target", some (.string target)), ("ref_type", some (.string kind)),
        ("label", label.map .string)]
  | .custom kind data =>
      [("custom_type", some (.string kind)), ("data", some (.ofTexts data))]
  | .handbook o => o.slots

/-- A value as a data value. -/
def Value.toJson (v : Value) : Json :=
  .object (("kind", .string v.kind) :: present v.slots)

/-- The fields of a provenance. -/
def Provenance.slots (p : Provenance) : Slots :=
  [("author", p.author.map .string), ("created", p.created.map .string),
    ("modified", p.modified.map .string), ("confidence", p.confidence.map .number),
    ("source", p.source.map .string), ("note", p.note.map .string)]

/-- A provenance as a data value. -/
def Provenance.toJson (p : Provenance) : Json :=
  .object (present p.slots)

/-- A remark as a data value. Its own keys are not computed. -/
def toJson (r : Remark) : Json :=
  .object (("id", .string r.id) :: ("type", wordValue r.topic) :: ("target", r.target.toJson)
    :: ("value", r.value.toJson)
    :: (r.provenance.map fun p => (("metadata" : Text), p.toJson)).toList)

/-! ## 3. Reading -/

/-- Why a remark cannot be read. -/
inductive Fault where
  /-- A key of the remark itself is missing. -/
  | noKey (key : Text)
  /-- Something that should be an object is none. -/
  | notAnObject
  /-- A required field is absent, or a field is of the wrong kind. -/
  | noField
  /-- A word outside its vocabulary. -/
  | notATerm (value : Json) (title : Text)
  | unknownTarget (type : Json)
  | unknownValue (kind : Json)

/-- The text of a fault, for those that have one. -/
def Fault.message : Fault → Option Text
  | .noKey key => some key
  | .notAnObject | .noField => none
  | .notATerm value title => some (value.quoted ++ " is not a valid " ++ title)
  | .unknownTarget type => some ("Unknown annotation target type: " ++ type.quoted)
  | .unknownValue kind => some ("Unknown annotation value kind: " ++ kind.quoted)

/-- The field with a name, unless it is absent or null. -/
def given? (members : Table Json) (name : Text) : Option Json :=
  match members.get? (camel name) with
  | some .null => none
  | found => found

/-- A field read by `decode`, absent where it is absent. -/
def optional {α : Type} (decode : Json → Option α) (members : Table Json) (name : Text) :
    Except Fault (Option α) :=
  match given? members name with
  | none => .ok none
  | some value =>
      match decode value with
      | some a => .ok (some a)
      | none => .error .noField

/-- A text field. -/
def text? : Table Json → Text → Except Fault (Option Text) :=
  optional Json.asString?

/-- An integer field. -/
def int? : Table Json → Text → Except Fault (Option Int) :=
  optional Json.asInt?

/-- A number field. -/
def number? : Table Json → Text → Except Fault (Option Number) :=
  optional Json.asNumber?

/-- The term of a vocabulary that a value names. -/
def termOf (α : Type) [Vocabulary α] (value : Json) : Except Fault α :=
  match value.asString?.bind Vocabulary.ofWord? with
  | some a => .ok a
  | none => .error (.notATerm value (Vocabulary.title α))

/-- A field with a word of a vocabulary. -/
def term? (α : Type) [Vocabulary α] (members : Table Json) (name : Text) :
    Except Fault (Option α) :=
  match given? members name with
  | none => .ok none
  | some value => some <$> termOf α value

/-- A field that must be there once all have been read. -/
def required {α : Type} : Option α → Except Fault α
  | some a => .ok a
  | none => .error .noField

/-- The members of an object. -/
def membersOf (data : Json) : Except Fault (Table Json) :=
  match data.asObject? with
  | some members => .ok members
  | none => .error .notAnObject

/-- A target from its data value. -/
def Target.ofJson (data : Json) : Except Fault Target := do
  let members ← membersOf data
  let type := (members.get? "type").getD .null
  match type with
  | .string t =>
      if t = ("word" : Text) then
        return .word (← required (← int? members "word_index"))
      else if t = ("char" : Text) then
        let index ← int? members "word_index"
        let start ← int? members "char_start"
        let stop ← int? members "char_end"
        return .characters (← required index) (← required start) (← required stop)
      else if t = ("span" : Text) then
        let first ← int? members "start_word"
        let last ← int? members "end_word"
        return .span (← required first) (← required last)
      else throw (.unknownTarget type)
  | _ => throw (.unknownTarget type)

/-- An observation from the members of its data value. -/
def Observation.ofMembers (members : Table Json) : Except Fault Observation := do
  let aspect ← term? Aspect members "observation_type"
  let unclearReason ← term? UnclearReason members "unclear_reason"
  let addPlace ← term? AddPlace members "add_place"
  let addKind ← term? AddKind members "add_type"
  let hand ← text? members "hand"
  let deletionManner ← term? DeletionManner members "del_rend"
  let suppliedReason ← term? SuppliedReason members "supplied_reason"
  let resp ← text? members "resp"
  let source ← text? members "source"
  let characterKind ← term? CharacterKind members "char_type"
  let characterSize ← int? members "char_size"
  let description ← text? members "description"
  let certainty ← number? members "certainty"
  return { aspect := ← required aspect, unclearReason, addPlace, addKind, hand, deletionManner
           suppliedReason, resp, source, characterKind, characterSize, description, certainty }

/-- The data of a custom value. -/
def customData (members : Table Json) : Except Fault (Table Text) := do
  match given? members "data" with
  | none => return []
  | some (.object entries) => return (Json.texts (.object entries))
  | some _ => throw .noField

/-- A value of the given kind from the members of its data value. -/
def Value.ofMembers? (kind : Text) (members : Table Json) : Option (Except Fault Value) :=
  if kind = ("lemma" : Text) then some do
    let h ← text? members "lemma"
    let msa ← text? members "msa"
    let normalized ← text? members "normalized"
    let onpId ← text? members "onp_id"
    return .headword (← required h) (← required msa) normalized onpId
  else if kind = ("semantic" : Text) then some do
    let category ← text? members "category"
    let subcategory ← text? members "subcategory"
    let identifier ← text? members "identifier"
    let label ← text? members "label"
    return .semantic (← required category) subcategory identifier label
  else if kind = ("note" : Text) then some do
    let text ← text? members "text"
    let category ← text? members "category"
    return .note (← required text) category
  else if kind = ("paleographic" : Text) then some do
    let feature ← term? Feature members "observation_type"
    let description ← text? members "description"
    let certainty ← number? members "certainty"
    return .paleographic (← required feature) description certainty
  else if kind = ("syntax" : Text) then some do
    let role ← text? members "function"
    let details ← text? members "details"
    return .syntactic (← required role) details
  else if kind = ("reference" : Text) then some do
    let target ← text? members "target"
    let refKind ← text? members "ref_type"
    let label ← text? members "label"
    return .reference (← required target) (← required refKind) label
  else if kind = ("custom" : Text) then some do
    let customKind ← text? members "custom_type"
    let data ← customData members
    return .custom (← required customKind) data
  else if kind = ("menota-paleographic" : Text) then some do
    return .handbook (← Observation.ofMembers members)
  else none

/-- A value from its data value. -/
def Value.ofJson (data : Json) : Except Fault Value := do
  let members ← membersOf data
  let kind := (members.get? "kind").getD .null
  match kind.asString?.bind fun k => Value.ofMembers? k members with
  | some value => value
  | none => throw (.unknownValue kind)

/-- A provenance that says nothing. -/
def Provenance.silent : Provenance :=
  ⟨none, none, none, none, none, none⟩

/-- The keys of a provenance. -/
def Provenance.keys : List Text :=
  keysOf silent.slots

/-- A provenance from the members of its data value. -/
def Provenance.ofMembers (members : Table Json) : Except Fault Provenance := do
  let author ← text? members "author"
  let created ← text? members "created"
  let modified ← text? members "modified"
  let confidence ← number? members "confidence"
  let source ← text? members "source"
  let note ← text? members "note"
  return { author, created, modified, confidence, source, note }

/-- A provenance from its data value. A text or a list in its place says
nothing, as long as no key of a provenance occurs in it. -/
def Provenance.ofJson : Json → Except Fault Provenance
  | .object members => ofMembers members
  | .string t => if keys.any (Text.holds t) then .error .noField else .ok silent
  | .array items =>
      if keys.any (items.filterMap Json.asString?).contains then .error .noField else .ok silent
  | _ => .error .noField

/-- A member that a remark must have. -/
def key (members : Table Json) (name : Text) : Except Fault Json :=
  match members.get? name with
  | some value => .ok value
  | none => .error (.noKey name)

/-- A remark from its data value. -/
def ofJson (data : Json) : Except Fault Remark := do
  let members ← membersOf data
  let provenance := (members.get? "metadata").getD .null
  let id ← key members "id"
  let topic ← termOf Topic (← key members "type")
  let target ← Target.ofJson (← key members "target")
  let value ← Value.ofJson (← key members "value")
  let provenance ← if provenance.isGiven then some <$> Provenance.ofJson provenance else pure none
  let id ← required id.asString?
  return { id, topic, target, value, provenance }

end Transcription.Remark

namespace Transcription.Remarks

open Remark (Fault)

/-- A collection of remarks as a data value. -/
def toJson (rs : Remarks) : Json :=
  .object [("version", .string rs.version), ("annotations", .array (rs.items.map Remark.toJson))]

/-- The items of the list of remarks in a file. -/
def itemsOf : Json → Except Fault (List Json)
  | .array items => .ok items
  | .object members => if members.isEmpty then .ok [] else .error .notAnObject
  | .string t => if t.isEmpty then .ok [] else .error .notAnObject
  | _ => .error .noField

/-- A collection of remarks from its data value. -/
def ofJson (data : Json) : Except Fault Remarks := do
  let members ← Remark.membersOf data
  let items ← itemsOf ((members.get? "annotations").getD (.array []))
  let remarks ← items.mapM Remark.ofJson
  let version := (members.get? "version").getD (.string "1.0")
  return { version := ← Remark.required version.asString?, items := remarks }

/-- A collection of remarks as text. An indent below zero counts as zero. -/
def write (indent : Option Int) (rs : Remarks) : Text :=
  rs.toJson.write (indent.map Int.toNat)

/-- The collection of remarks that a text writes, unless the text is no data
value. -/
def read? (t : Text) : Option (Except Fault Remarks) :=
  (Json.read? t).map ofJson

end Transcription.Remarks
