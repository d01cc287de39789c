/-
Transcription.Json.Quoted — data values as messages show them: strings in
quotation marks, `None`, `True` and `False`, lists and objects with their
items quoted in turn.
-/
import Transcription.Json.Basic
import Transcription.Text.Quoted

namespace Transcription.Json

/-- A number in a message: the infinities and the value that is not a number
are written in lower case. -/
def quotedNumber : Number → Text
  | .infinite negative => (if negative then ['-'] else []) ++ "inf"
  | .notANumber => "nan"
  | n => n.write

mutual

/-- A value as a message shows it. -/
def quoted : Json → Text
  | .null => "None"
  | .bool true => "True"
  | .bool false => "False"
  | .number n => quotedNumber n
  | .string t => Text.quoted t
  | .array items => '[' :: Text.join ", " (quotedItems items) ++ [']']
  | .object members => '{' :: Text.join ", " (quotedMembers members) ++ ['}']

/-- Each item as a message shows it. -/
def quotedItems : List Json → List Text
  | [] => []
  | item :: items => quoted item :: quotedItems items

/-- Each member as a message shows it. -/
def quotedMembers : List (Text × Json) → List Text
  | [] => []
  | (key, value) :: members =>
      (Text.quoted key ++ ": " ++ quoted value) :: quotedMembers members

end

/-- The word for the kind of a value in a message. -/
def kindWord : Json → Text
  | .null => "NoneType"
  | .bool _ => "bool"
  | .number (.integer _) => "int"
  | .number _ => "float"
  | .string _ => "str"
  | .array _ => "list"
  | .object _ => "dict"

end Transcription.Json
