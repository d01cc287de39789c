/-
Transcription.Fault — messages with a place: a file, a line and a column,
each of which may be unknown.
-/
import Transcription.Text.Basic

namespace Transcription

/-- A place in a text; lines and columns count from one. -/
structure Position where
  line : Nat
  column : Nat
  deriving DecidableEq, Repr

/-- The place where `rest` begins in `source`, of which it is the end. -/
def Position.ofRest (source rest : Text) : Position :=
  let before := source.take (source.length - rest.length)
  { line := before.count '\n' + 1
    column := (before.reverse.takeWhile (· ≠ '\n')).length + 1 }

/-- A message with as much of its place as is known. -/
structure Located where
  message : Text
  line : Option Int
  column : Option Int
  file : Option Text
  deriving DecidableEq, Repr

namespace Located

/-- The known parts of the place, each with a colon after it. -/
def place (l : Located) : Text :=
  let file := l.file.getD []
  (if file.isEmpty then [] else file ++ [':'])
    ++ match l.line with
      | none => []
      | some line =>
          Text.ofInt line ++ ':' ::
            match l.column with
            | none => []
            | some column => Text.ofInt column ++ [':']

/-- The message after its place, without the colons that end the place. -/
def text (l : Located) : Text :=
  if l.place.isEmpty then l.message
  else (l.place.reverse.dropWhile (· = ':')).reverse ++ ' ' :: l.message

end Located

end Transcription
