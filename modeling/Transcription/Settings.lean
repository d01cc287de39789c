/-
Transcription.Settings — the switches that decide the shape of the compiled
markup, and the surrounding settings that count where none are given.
-/

namespace Transcription

/-- The switches of a compilation. -/
structure Settings where
  /-- Group the nodes and put words and marks into elements. -/
  wordWrap : Bool
  /-- Number line breaks that have no label. -/
  autoLineNumbers : Bool
  /-- Write the facsimile, diplomatic and normalized readings. -/
  multiLevel : Bool
  /-- Put what follows a page break into a paragraph. -/
  wrapPages : Bool
  deriving DecidableEq, Repr

/-- All switches off. -/
def Settings.plain : Settings :=
  ⟨false, false, false, false⟩

/-- The settings that count: those given, or else the surrounding ones. -/
def Settings.orElse (given : Option Settings) (surrounding : Settings) : Settings :=
  given.getD surrounding

/-- Run a computation with other surrounding settings and bring back the
former ones afterwards. -/
def Settings.within {α : Type} (inner : Settings) (body : Settings → α × Settings)
    (surrounding : Settings) : α × Settings :=
  ((body inner).1, surrounding)

end Transcription
