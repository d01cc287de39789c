/-
Transcription.Log — the names of log channels. All channels lie under one
root, and a name that lies elsewhere is put under it.
-/
import Transcription.Text.Basic

namespace Transcription.Log

/-- The root of all channels. -/
def root : Text := "scriptorium"

/-- The channel of a name. -/
def channel (name : Text) : Text :=
  if name = root ∨ Text.startsWith name (root ++ ".") then name
  else root ++ '.' :: name

end Transcription.Log
