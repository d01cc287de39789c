/-
Transcription.Json.Basic — data values as trees whose objects keep the order
of their members.
-/
import Transcription.Table
import Transcription.Number.Basic

namespace Transcription

/-- A data value. The members of an object come in order, each key once. -/
inductive Json where
  | null
  | bool (b : Bool)
  | number (n : Number)
  | string (t : Text)
  | array (items : List Json)
  | object (members : List (Text × Json))
  deriving Repr, Inhabited

namespace Json

/-- The value that holds an integer. -/
def int (n : Int) : Json :=
  .number (.integer n)

/-- The value under a key of an object. -/
def get? : Json → Text → Option Json
  | .object members, key => Table.get? members key
  | _, _ => none

/-- The text of a string value. -/
def asString? : Json → Option Text
  | .string t => some t
  | _ => none

/-- The integer of a number value. -/
def asInt? : Json → Option Int
  | .number (.integer n) => some n
  | _ => none

/-- The truth value of a boolean value. -/
def asBool? : Json → Option Bool
  | .bool b => some b
  | _ => none

/-- The number of a number value. -/
def asNumber? : Json → Option Number
  | .number n => some n
  | _ => none

/-- The items of an array value. -/
def asArray? : Json → Option (List Json)
  | .array items => some items
  | _ => none

/-- The members of an object value. -/
def asObject? : Json → Option (Table Json)
  | .object members => some members
  | _ => none

/-- The characters that a string holds as a letter after a backslash. -/
def lettered : List (Char × Char) :=
  [('\x08', 'b'), ('\t', 't'), ('\n', 'n'), ('\x0C', 'f'), ('\r', 'r')]

/-- A missing value as null. -/
def ofOption {α : Type} (encode : α → Json) : Option α → Json
  | none => .null
  | some a => encode a

/-- A table of texts as an object of strings. -/
def ofTexts (table : Table Text) : Json :=
  .object (table.map fun (key, value) => (key, .string value))

/-- The string members of an object value. -/
def texts : Json → Table Text
  | .object members => members.filterMap fun (key, value) => (asString? value).map (key, ·)
  | _ => []

/-- Whether a value can be a key or a member of a set: lists and objects cannot. -/
def isKey : Json → Bool
  | .array _ | .object _ => false
  | _ => true

/-- Whether a value is null. -/
def isNull : Json → Bool
  | .null => true
  | _ => false

/-- Whether a value counts as given: null, false, zero and whatever is
empty do not. -/
def isGiven : Json → Bool
  | .null => false
  | .bool b => b
  | .number n => !n.isZero
  | .string t => !t.isEmpty
  | .array items => !items.isEmpty
  | .object members => !members.isEmpty

end Json

end Transcription
