/-
Transcription.Remark.Basic — remarks on words, characters and stretches of
words, and collections of them.

A remark has an identifier, a topic, a target in the compiled text and a
value. Words count from zero in the order in which they are compiled.
-/
import Transcription.Remark.Vocabulary
import Transcription.Json.Basic

namespace Transcription

namespace Remark

/-- What a remark is attached to. -/
inductive Target where
  | word (index : Int)
  /-- The characters of a word's facsimile from `start` up to `stop`. -/
  | characters (index start stop : Int)
  /-- The words from `first` to `last`, both included. -/
  | span (first last : Int)
  deriving DecidableEq, Repr

/-- Whether a target covers a word. -/
def Target.covers (index : Int) : Target → Bool
  | .word i => i == index
  | .characters i _ _ => i == index
  | .span first last => decide (first ≤ index ∧ index ≤ last)

/-- The first word of a target. -/
def Target.firstWord : Target → Int
  | .word i => i
  | .characters i _ _ => i
  | .span first _ => first

/-- An observation in the handbook's terms. Which of the terms matter
depends on the aspect. -/
structure Observation where
  aspect : Aspect
  unclearReason : Option UnclearReason
  addPlace : Option AddPlace
  addKind : Option AddKind
  hand : Option Text
  deletionManner : Option DeletionManner
  suppliedReason : Option SuppliedReason
  resp : Option Text
  source : Option Text
  characterKind : Option CharacterKind
  characterSize : Option Int
  description : Option Text
  certainty : Option Number
  deriving DecidableEq, Repr

/-- What a remark says. -/
inductive Value where
  | headword (headword msa : Text) (normalized onpId : Option Text)
  | semantic (category : Text) (subcategory identifier label : Option Text)
  | note (text : Text) (category : Option Text)
  | paleographic (feature : Feature) (description : Option Text) (certainty : Option Number)
  | syntactic (role : Text) (details : Option Text)
  | reference (target kind : Text) (label : Option Text)
  | custom (kind : Text) (data : Table Text)
  | handbook (observation : Observation)
  deriving DecidableEq, Repr

/-- Who made a remark, when, and how sure they were. -/
structure Provenance where
  author : Option Text
  created : Option Text
  modified : Option Text
  confidence : Option Number
  source : Option Text
  note : Option Text
  deriving DecidableEq, Repr

end Remark

/-- A remark: what it is about, what it is attached to and what it says. -/
structure Remark where
  id : Text
  topic : Remark.Topic
  target : Remark.Target
  value : Remark.Value
  provenance : Option Remark.Provenance
  deriving DecidableEq, Repr

/-- The headword of a word, its analysis and its normalized form. -/
structure Headword where
  headword : Text
  msa : Text
  normalized : Option Text
  deriving DecidableEq, Repr

/-- The remark that gives a word its headword. -/
def Remark.ofHeadword (index : Int) (h : Headword) : Remark :=
  { id := "lemma-" ++ Text.ofInt index
    topic := .headword
    target := .word index
    value := .headword h.headword h.msa h.normalized none
    provenance := none }

/-- The remarks on one text, in the order in which they were made. -/
structure Remarks where
  version : Text
  items : List Remark
  deriving DecidableEq, Repr

namespace Remarks

/-- No remarks. -/
def empty : Remarks :=
  ⟨"1.0", []⟩

/-- One more remark. -/
def add (rs : Remarks) (r : Remark) : Remarks :=
  { rs with items := rs.items ++ [r] }

/-- The first remark with an identifier. -/
def get? (rs : Remarks) (id : Text) : Option Remark :=
  rs.items.find? fun r => r.id = id

/-- Take out the first remark with an identifier. -/
def remove (rs : Remarks) (id : Text) : Option Remark × Remarks :=
  (rs.get? id, { rs with items := rs.items.eraseP fun r => r.id = id })

/-- The remarks whose target covers a word. -/
def forWord (rs : Remarks) (index : Int) : List Remark :=
  rs.items.filter fun r => r.target.covers index

/-- The remarks on a topic. -/
def onTopic (rs : Remarks) (topic : Remark.Topic) : List Remark :=
  rs.items.filter fun r => r.topic = topic

/-- Words with their headwords. -/
abbrev Headwords := List (Int × Headword)

/-- Give a word a headword: in place when it has one. -/
def Headwords.insert (index : Int) (h : Headword) : Headwords → Headwords
  | [] => [(index, h)]
  | (i, old) :: rest =>
      if i = index then (i, h) :: rest else (i, old) :: Headwords.insert index h rest

/-- The headwords that remarks on single words give; the last remark on a
word counts. -/
def headwords (rs : Remarks) : Headwords :=
  rs.items.foldl (fun acc r =>
    match r.topic, r.target, r.value with
    | .headword, .word index, .headword h msa normalized _ =>
        Headwords.insert index ⟨h, msa, normalized⟩ acc
    | _, _, _ => acc) []

end Remarks

end Transcription
