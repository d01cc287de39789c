/-
Transcription.Registry — named characters: from the name to the character
and back.

A name stands for the character it was given last. A character goes back to
the name that was the first to be given it.
-/
import Transcription.Json.Basic

namespace Transcription

/-- What is known of a named character. A definition that has something else than a text in the
place of the character gives none. -/
structure CharacterEntry where
  codePoint : Text
  char? : Option Text
  description : Text
  category : Text
  deriving DecidableEq, Repr

/-- The character of an entry as it is shown. -/
def CharacterEntry.char (entry : CharacterEntry) : Text :=
  entry.char?.getD []

/-- Named characters in order of first naming, and the first name of each
character. -/
structure Registry where
  entries : Table CharacterEntry
  names : Table Text
  deriving DecidableEq, Repr

/-- Why a file of named characters cannot be taken in. -/
inductive RegistryFault where
  | noTable
  /-- A definition is no object, or a list or an object stands for its character. -/
  | notAnEntry
  | missing (key : Text)
  deriving DecidableEq, Repr

/-- The text of a fault, for those that have one. -/
def RegistryFault.message : RegistryFault → Option Text
  | .noTable => some "Entity definition file has no 'entities' object"
  | .notAnEntry => none
  | .missing key => some key

namespace Registry

/-- No characters. -/
def empty : Registry :=
  ⟨[], []⟩

/-- Name a character. -/
def add (r : Registry) (name : Text) (entry : CharacterEntry) : Registry :=
  { entries := r.entries.insert name entry
    names := entry.char?.elim r.names fun char => r.names.insertIfNew char name }

/-- The entry of a name. -/
def get? (r : Registry) (name : Text) : Option CharacterEntry :=
  r.entries.get? name

/-- The character that a name stands for. -/
def resolve (r : Registry) (name : Text) : Option Text :=
  (r.get? name).bind CharacterEntry.char?

/-- The name of a character. -/
def nameOf (r : Registry) (char : Text) : Option Text :=
  r.names.get? char

/-- The names in order. -/
def sortedNames (r : Registry) : List Text :=
  r.entries.keys.mergeSort Text.le

/-! ## Reading -/

/-- An entry from its data form. -/
def entryOf (data : Json) : Except RegistryFault CharacterEntry := do
  let some members := data.asObject? | throw .notAnEntry
  let field (key : Text) : Text := ((Table.get? members key).bind Json.asString?).getD []
  match Table.get? members "char" with
  | none => throw (.missing "char")
  | some char =>
      return { codePoint := field "unicode", char? := char.asString?
               description := field "description", category := field "category" }

/-- Whether what stands for the character of an entry can be a key. -/
def keyed (data : Json) : Bool :=
  (data.get? "char").all Json.isKey

/-- Add the entries one after the other. At the first faulty one the registry stays as it is by
then. An entry whose character cannot be a key is found faulty after its name has got it. -/
def addAll (r : Registry) : List (Text × Json) → Registry × Option RegistryFault
  | [] => (r, none)
  | (name, data) :: rest =>
      match entryOf data with
      | .ok entry =>
          if keyed data then addAll (r.add name entry) rest
          else (r.add name entry, some .notAnEntry)
      | .error fault => (r, some fault)

/-- Add the entries of a file of named characters. -/
def load (r : Registry) (file : Json) : Registry × Option RegistryFault :=
  match (file.get? "entities").bind Json.asObject? with
  | some members => addAll r members
  | none => (r, some .noTable)

end Registry

end Transcription
