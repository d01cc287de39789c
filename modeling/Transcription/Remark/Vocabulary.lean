/-
Transcription.Remark.Vocabulary — the closed vocabularies of remarks: what a
remark is about, what a palaeographer observes, and the handbook terms for
reasons, places and kinds.
-/
import Transcription.Text.Quoted

namespace Transcription

/-- A closed vocabulary: its terms with their words, and the title that
messages call it by. -/
class Vocabulary (α : Type) where
  terms : List α
  word : α → Text
  title : Text

/-- The term with a given word. -/
def Vocabulary.ofWord? {α : Type} [Vocabulary α] (t : Text) : Option α :=
  (Vocabulary.terms (α := α)).find? fun a => Vocabulary.word a = t

namespace Remark

/-- What a remark is about, whatever its value says. -/
inductive Topic where
  | headword
  | semantic
  | note
  | paleographic
  | syntactic
  | reference
  | custom
  deriving DecidableEq, Repr

instance : Vocabulary Topic where
  terms := [.headword, .semantic, .note, .paleographic, .syntactic, .reference, .custom]
  word
    | .headword => "lemma"
    | .semantic => "semantic"
    | .note => "note"
    | .paleographic => "paleographic"
    | .syntactic => "syntax"
    | .reference => "reference"
    | .custom => "custom"
  title := "AnnotationType"

/-- What can be observed about the writing. -/
inductive Feature where
  | unclear
  | damage
  | erasure
  | letterform
  | abbreviation
  | correction
  | addition
  | decoration
  | other
  deriving DecidableEq, Repr

instance : Vocabulary Feature where
  terms := [.unclear, .damage, .erasure, .letterform, .abbreviation, .correction, .addition,
    .decoration, .other]
  word
    | .unclear => "unclear"
    | .damage => "damage"
    | .erasure => "erasure"
    | .letterform => "letterform"
    | .abbreviation => "abbreviation"
    | .correction => "correction"
    | .addition => "addition"
    | .decoration => "decoration"
    | .other => "other"
  title := "PaleographicType"

/-- What a handbook observation is about. -/
inductive Aspect where
  | unclear
  | addition
  | deletion
  | supplied
  | character
  deriving DecidableEq, Repr

instance : Vocabulary Aspect where
  terms := [.unclear, .addition, .deletion, .supplied, .character]
  word
    | .unclear => "unclear"
    | .addition => "addition"
    | .deletion => "deletion"
    | .supplied => "supplied"
    | .character => "character"
  title := "MenotaObservationType"

/-- Why a reading is unclear. -/
inductive UnclearReason where
  | illegible
  | faded
  | smudged
  | damage
  | erasure
  | overwriting
  | binding
  | other
  deriving DecidableEq, Repr

instance : Vocabulary UnclearReason where
  terms := [.illegible, .faded, .smudged, .damage, .erasure, .overwriting, .binding, .other]
  word
    | .illegible => "illegible"
    | .faded => "faded"
    | .smudged => "smudged"
    | .damage => "damage"
    | .erasure => "erasure"
    | .overwriting => "overwriting"
    | .binding => "binding"
    | .other => "other"
  title := "MenotaUnclearReason"

/-- Where an addition stands. -/
inductive AddPlace where
  | inLine
  | supralinear
  | infralinear
  | marginLeft
  | marginRight
  | marginTop
  | marginBottom
  | interlinear
  deriving DecidableEq, Repr

instance : Vocabulary AddPlace where
  terms := [.inLine, .supralinear, .infralinear, .marginLeft, .marginRight, .marginTop,
    .marginBottom, .interlinear]
  word
    | .inLine => "inline"
    | .supralinear => "supralinear"
    | .infralinear => "infralinear"
    | .marginLeft => "margin-left"
    | .marginRight => "margin-right"
    | .marginTop => "margin-top"
    | .marginBottom => "margin-bottom"
    | .interlinear => "interlinear"
  title := "MenotaAddPlace"

/-- What an addition is for. -/
inductive AddKind where
  | supplement
  | gloss
  | correction
  deriving DecidableEq, Repr

instance : Vocabulary AddKind where
  terms := [.supplement, .gloss, .correction]
  word
    | .supplement => "supplement"
    | .gloss => "gloss"
    | .correction => "correction"
  title := "MenotaAddType"

/-- How a deletion was made. -/
inductive DeletionManner where
  | overstrike
  | erasure
  | subpunction
  | expunction
  | bracketed
  deriving DecidableEq, Repr

instance : Vocabulary DeletionManner where
  terms := [.overstrike, .erasure, .subpunction, .expunction, .bracketed]
  word
    | .overstrike => "overstrike"
    | .erasure => "erasure"
    | .subpunction => "subpunction"
    | .expunction => "expunction"
    | .bracketed => "bracketed"
  title := "MenotaDelRend"

/-- Why text was supplied. -/
inductive SuppliedReason where
  | omitted
  | damage
  | illegible
  | restoration
  | emendation
  deriving DecidableEq, Repr

instance : Vocabulary SuppliedReason where
  terms := [.omitted, .damage, .illegible, .restoration, .emendation]
  word
    | .omitted => "omitted"
    | .damage => "damage"
    | .illegible => "illegible"
    | .restoration => "restoration"
    | .emendation => "emendation"
  title := "MenotaSuppliedReason"

/-- What is special about a character. -/
inductive CharacterKind where
  | initial
  | capital
  | rubric
  | colored
  deriving DecidableEq, Repr

instance : Vocabulary CharacterKind where
  terms := [.initial, .capital, .rubric, .colored]
  word
    | .initial => "initial"
    | .capital => "capital"
    | .rubric => "rubric"
    | .colored => "colored"
  title := "MenotaCharType"

end Remark

end Transcription
