/-
Transcription.Json.Printer — writing a data value as text.

On one line the separators are `, ` and `: `; with an indent every item
stands on a line of its own and the comma has no blank after it. Characters
below U+0020, the quotation mark and the backslash are escaped, all others
stand for themselves.
-/
import Transcription.Json.Basic
import Transcription.Text.Quoted

namespace Transcription.Json

/-- One character of a string. -/
def writeChar (c : Char) : Text :=
  if c = '\x22' ∨ c = '\\' then ['\\', c]
  else
    match lettered.lookup c with
    | some letter => ['\\', letter]
    | none => if c.toNat < 0x20 then '\\' :: 'u' :: Text.hexDigits 4 c.toNat else [c]

/-- A string in quotation marks. -/
def writeString (t : Text) : Text :=
  '\x22' :: t.flatMap writeChar ++ ['\x22']

/-- What stands before an item at a depth: nothing on one line, else a line
feed and the indent for each level. -/
def lineStart (indent : Option Nat) (depth : Nat) : Text :=
  match indent with
  | none => []
  | some width => '\n' :: List.replicate (width * depth) ' '

/-- What stands between two items. -/
def itemSeparator (indent : Option Nat) (depth : Nat) : Text :=
  match indent with
  | none => ", "
  | some _ => ',' :: lineStart indent depth

mutual

/-- A value at a depth. -/
def writeAt (indent : Option Nat) (depth : Nat) : Json → Text
  | .null => "null"
  | .bool true => "true"
  | .bool false => "false"
  | .number n => n.write
  | .string t => writeString t
  | .array [] => "[]"
  | .array (item :: items) =>
      '[' :: lineStart indent (depth + 1) ++ writeAt indent (depth + 1) item
        ++ writeItems indent (depth + 1) items ++ lineStart indent depth ++ [']']
  | .object [] => ['{', '}']
  | .object ((key, value) :: members) =>
      '{' :: lineStart indent (depth + 1) ++ writeString key ++ ": "
        ++ writeAt indent (depth + 1) value
        ++ writeMembers indent (depth + 1) members ++ lineStart indent depth ++ ['}']

/-- The items after the first one. -/
def writeItems (indent : Option Nat) (depth : Nat) : List Json → Text
  | [] => []
  | item :: items =>
      itemSeparator indent depth ++ writeAt indent depth item ++ writeItems indent depth items

/-- The members after the first one. -/
def writeMembers (indent : Option Nat) (depth : Nat) : List (Text × Json) → Text
  | [] => []
  | (key, value) :: members =>
      itemSeparator indent depth ++ writeString key ++ ": " ++ writeAt indent depth value
        ++ writeMembers indent depth members

end

/-- A value as text, its members in the order they have. -/
def write (indent : Option Nat) (value : Json) : Text :=
  writeAt indent 0 value

mutual

/-- The value with the members of every object in the order of their
keys. -/
def sorted : Json → Json
  | .array items => .array (sortedItems items)
  | .object members => .object (Table.sorted (sortedMembers members))
  | value => value

/-- Each item with its members in order. -/
def sortedItems : List Json → List Json
  | [] => []
  | item :: items => sorted item :: sortedItems items

/-- Each member with the members of its value in order. -/
def sortedMembers : List (Text × Json) → List (Text × Json)
  | [] => []
  | (key, value) :: members => (key, sorted value) :: sortedMembers members

end

end Transcription.Json
