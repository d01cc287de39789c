/-
Transcription.Edition.Apparatus — what a compilation consults besides the
text: the named characters, the rules between the levels, the headwords and
the remarks.
-/
import Transcription.Dictionary
import Transcription.Registry
import Transcription.Remark.Basic

namespace Transcription

/-- What a compilation consults. -/
structure Apparatus where
  registry : Registry
  dictionary : Option Dictionary
  headwords : Remarks.Headwords
  remarks : Option Remarks
  deriving DecidableEq, Repr

namespace Apparatus

/-- Nothing to consult. -/
def empty : Apparatus :=
  ⟨.empty, none, [], none⟩

/-- The letters that a named character is reduced to: none for a combining
mark, the base letter where there is one. -/
def reduced (a : Apparatus) (name : Text) : Option Text :=
  a.dictionary.bind fun d => if d.isCombiningMark name then some [] else d.baseLetter name

/-- A text with the substitutions of the normalized level. -/
def normalize (a : Apparatus) (t : Text) : Text :=
  match a.dictionary with
  | none => t
  | some d => d.normalize t

/-- The headword of a word. -/
def headword? (a : Apparatus) (index : Int) : Option Headword :=
  List.lookup index a.headwords

/-- The remarks on a word. -/
def remarksOn (a : Apparatus) (index : Int) : List Remark :=
  match a.remarks with
  | none => []
  | some rs => rs.forWord index

end Apparatus

end Transcription
