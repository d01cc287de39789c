/-
Transcription.Edition.WordAttributes — what the headwords and remarks add to
a word element: attributes, in the order of the remarks with the pointers of
all analyses together at the end, and notes.
-/
import Transcription.Edition.Apparatus
import Transcription.Markup

namespace Transcription

open Remark (Feature Observation)

/-- A certainty between zero and one as a term: at least eight tenths is
high, at least five tenths medium, and less is low. -/
def Number.certaintyLabel (n : Number) : Text :=
  if n.atLeastTenths 8 then "high"
  else if n.atLeastTenths 5 then "medium"
  else "low"

/-- The pointer of an observed feature. -/
def Remark.Feature.pointer : Feature → Text
  | .unclear => "unclear"
  | .damage => "damage"
  | .erasure => "erasure"
  | .letterform => "letterform"
  | .abbreviation => "abbrev-mark"
  | .correction => "correction"
  | .addition => "addition"
  | .decoration => "decoration"
  | .other => "paleo"

namespace Edition

/-- What a remark adds to a word: attributes, and pointers to analyses. -/
structure Addendum where
  attrs : Table Text
  pointers : List Text

/-- An attribute that is left out when there is nothing to say. -/
def attr? {α : Type} (name : Text) (encode : α → Text) : Option α → Table Text
  | none => []
  | some a => [(name, encode a)]

/-- What an observation in the handbook's terms adds. -/
def ofObservation (o : Observation) : Addendum :=
  match o.aspect with
  | .unclear =>
      ⟨attr? "reason" Vocabulary.word o.unclearReason
        ++ attr? "cert" Number.certaintyLabel o.certainty, ["#unclear"]⟩
  | .addition =>
      ⟨attr? "place" Vocabulary.word o.addPlace ++ attr? "type" Vocabulary.word o.addKind
        ++ attr? "hand" id o.hand, ["#addition"]⟩
  | .deletion =>
      ⟨attr? "rend" Vocabulary.word o.deletionManner ++ attr? "hand" id o.hand, ["#deletion"]⟩
  | .supplied =>
      ⟨attr? "reason" Vocabulary.word o.suppliedReason ++ attr? "resp" id o.resp, ["#supplied"]⟩
  | .character => ⟨[], []⟩

/-- What a remark adds; its value counts only under its own topic. -/
def ofRemark (r : Remark) : Addendum :=
  match r.topic, r.value with
  | .semantic, .semantic category subcategory _ _ =>
      ⟨[], ['#' :: category ++ (subcategory.map (':' :: ·)).getD []]⟩
  | .paleographic, .paleographic feature _ certainty =>
      ⟨attr? "cert" Number.certaintyLabel certainty, ["#paleo:" ++ feature.pointer]⟩
  | .paleographic, .handbook o => ofObservation o
  | _, _ => ⟨[], []⟩

end Edition

namespace Apparatus

open Edition

/-- The attributes that the headword of a word gives. -/
def headwordAttributes (a : Apparatus) (index : Int) : Table Text :=
  match a.headword? index with
  | none => []
  | some h => [("lemma", h.headword), ("me:msa", h.msa)]

/-- The attributes that the remarks on a word give. -/
def remarkAttributes (a : Apparatus) (index : Int) : Table Text :=
  let addenda := (a.remarksOn index).map ofRemark
  let pointers := addenda.flatMap Addendum.pointers
  addenda.flatMap Addendum.attrs
    ++ attr? "ana" (Text.join " ") (if pointers.isEmpty then none else some pointers)

/-- The attributes of a word. -/
def wordAttributes (a : Apparatus) (index : Int) : Table Text :=
  a.headwordAttributes index ++ a.remarkAttributes index

/-- The normalized form that the headword of a word gives. -/
def storedNormalized (a : Apparatus) (index : Int) : Option Text :=
  (a.headword? index).bind Headword.normalized

/-- The note that a remark adds to a word. -/
def noteOf (r : Remark) : Text :=
  match r.topic, r.value with
  | .note, .note text category =>
      "<note" ++ Markup.attributes (attr? "type" id category) ++ '>' :: Markup.escape text
        ++ "</note>"
  | _, _ => []

/-- The notes of a word, in the order of the remarks. -/
def notes (a : Apparatus) (index : Int) : Text :=
  (a.remarksOn index).flatMap noteOf

end Apparatus

end Transcription
