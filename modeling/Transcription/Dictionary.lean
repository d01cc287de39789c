/-
Transcription.Dictionary — what separates the levels of a transcription:
which named characters vanish at the diplomatic level, which letters others
stand for, and how characters are written at the normalized level.
-/
import Transcription.Json.Basic

namespace Transcription

/-- The rules between the levels. The substitutions are keyed by one
character each. -/
structure Dictionary where
  combiningMarks : List Text
  characters : Table Text
  ligatures : Table Text
  baseLetters : Table Text
  deriving DecidableEq, Repr

/-- Why a dictionary file cannot be taken in. -/
inductive DictionaryFault where
  | missing (name : Text)
  | notAnObject
  | noMappings
  | marksNotASet
  | notATable
  deriving DecidableEq, Repr

/-- The text of a fault, for those that have one. -/
def DictionaryFault.message : DictionaryFault → Option Text
  | .missing name => some ("Failed to parse dictionary: missing '" ++ name ++ "'")
  | .notAnObject => some "Failed to parse dictionary"
  | .noMappings => some "Failed to parse entity mappings: missing 'mappings'"
  | .marksNotASet | .notATable => none

namespace Dictionary

/-- Substitutions keyed by the first character of each key; a later key
with the same first character wins, and an empty key counts for nothing. -/
def firstCharacterKeys (entries : List (Text × Text)) : Table Text :=
  Table.ofEntries (entries.filterMap fun
    | ([], _) => none
    | (c :: _, value) => some ([c], value))

/-- A dictionary from its parts. -/
def ofParts (marks : List Text) (characters ligatures baseLetters : List (Text × Text)) :
    Dictionary :=
  { combiningMarks := marks
    characters := firstCharacterKeys characters
    ligatures := firstCharacterKeys ligatures
    baseLetters := Table.ofEntries baseLetters }

/-- No rules. -/
def empty : Dictionary :=
  ofParts [] [] [] []

/-- Whether a named character vanishes at the diplomatic level. -/
def isCombiningMark (d : Dictionary) (name : Text) : Bool :=
  d.combiningMarks.contains name

/-- The letter that a named character stands for. -/
def baseLetter (d : Dictionary) (name : Text) : Option Text :=
  d.baseLetters.get? name

/-- What is written for a character at the normalized level, if it
changes: character substitutions come before ligatures. -/
def normalizeChar (d : Dictionary) (c : Text) : Option Text :=
  (d.characters.get? c).or (d.ligatures.get? c)

/-- A text with every character substituted; one that neither table knows stays. -/
def normalize (d : Dictionary) (t : Text) : Text :=
  t.flatMap fun c => (d.characters.get? [c]).getD ((d.ligatures.get? [c]).getD [c])

/-- The two lookups, one as the default of the other, are what is written for a character, if
it changes, and the character itself otherwise. -/
theorem getD_normalizeChar (d : Dictionary) (c : Text) :
    (d.normalizeChar c).getD c = (d.characters.get? c).getD ((d.ligatures.get? c).getD c) := by
  unfold normalizeChar
  cases d.characters.get? c <;> rfl

/-- A text is normalized character by character. -/
theorem normalize_eq (d : Dictionary) (t : Text) :
    d.normalize t = t.flatMap fun c => (d.normalizeChar [c]).getD [c] := by
  simp only [normalize, getD_normalizeChar]

/-- Replace the base letters by those of a list. -/
def setBaseLetters (d : Dictionary) (entries : List (Text × Text)) : Dictionary :=
  { d with baseLetters := Table.ofEntries entries }

/-- Add base letters or change them. -/
def addBaseLetters (d : Dictionary) (entries : List (Text × Text)) : Dictionary :=
  { d with baseLetters := d.baseLetters.insertAll entries }

/-! ## Reading -/

/-- A section of a dictionary file. -/
def part (data : Json) (name : Text) : Except DictionaryFault Json :=
  match data.asObject? with
  | none => .error .notAnObject
  | some members =>
      match Table.get? members name with
      | some value => .ok value
      | none => .error (.missing name)

/-- The combining marks of a list, of the keys of an object or of the
characters of a string. -/
def marksOf : Json → Except DictionaryFault (List Text)
  | .array items =>
      if items.all Json.isKey then .ok (items.filterMap Json.asString?) else .error .marksNotASet
  | .object members => .ok (members.map Prod.fst)
  | .string t => .ok (t.map fun c => [c])
  | _ => .error .marksNotASet

/-- The substitutions of an object; nothing given means none. -/
def substitutionsOf (data : Json) : Except DictionaryFault (List (Text × Text)) :=
  match data with
  | .object _ => .ok data.texts
  | _ => if data.isGiven then .error .notATable else .ok []

/-- A dictionary from its file, without base letters. -/
def ofJson (file : Json) : Except DictionaryFault Dictionary := do
  let marks ← part (← part file "diplomatic") "combining_marks"
  let normalized ← part file "normalized"
  let characters ← part normalized "character_mappings"
  let ligatures ← part normalized "ligature_expansions"
  return ofParts (← marksOf marks) (← substitutionsOf characters) (← substitutionsOf ligatures) []

/-- The dictionary with the base letters of a mapping file. -/
def loadBaseLetters (d : Dictionary) (file : Json) : Except DictionaryFault Dictionary :=
  match file.get? "mappings" with
  | some (.object members) => .ok (d.setBaseLetters (Json.texts (.object members)))
  | _ => .error .noMappings

end Dictionary

end Transcription
