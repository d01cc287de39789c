/-
Transcription.Json.Reader — reading a data value from text.

Blanks between tokens are space, tabulator, line feed and carriage return.
Strings hold no character below U+0020; `NaN`, `Infinity` and `-Infinity`
are numbers. When a key occurs twice in an object the last value counts, at
the first place. The recursion is bounded by the length of the text, which
every step shortens.
-/
import Transcription.Json.Basic

namespace Transcription.Json

/-! ## 1. Tokens -/

/-- Whether a character may stand between tokens. -/
def isGap (c : Char) : Bool :=
  c = ' ' || c = '\n' || c = '\t' || c = '\r'

/-- The text without the blanks at its start. -/
def skipGaps (t : Text) : Text :=
  t.dropWhile isGap

/-- The value of a hexadecimal digit. -/
def hexValue? (c : Char) : Option Nat :=
  if '0' ≤ c ∧ c ≤ '9' then some (c.toNat - '0'.toNat)
  else if 'a' ≤ c ∧ c ≤ 'f' then some (c.toNat - 'a'.toNat + 10)
  else if 'A' ≤ c ∧ c ≤ 'F' then some (c.toNat - 'A'.toNat + 10)
  else none

/-- The number that four hexadecimal digits stand for. -/
def hexFour? : Text → Option (Nat × Text)
  | a :: b :: c :: d :: rest => do
      let n := (((← hexValue? a) * 16 + (← hexValue? b)) * 16 + (← hexValue? c)) * 16
      some (n + (← hexValue? d), rest)
  | _ => none

/-- Whether a 16-bit unit is the first of a pair. -/
def isHighUnit (n : Nat) : Bool :=
  0xD800 ≤ n && n < 0xDC00

/-- Whether a 16-bit unit is the second of a pair. -/
def isLowUnit (n : Nat) : Bool :=
  0xDC00 ≤ n && n < 0xE000

/-- The code point of a 16-bit unit, a unit outside a pair standing for the
replacement character. -/
def unitChar (n : Nat) : Char :=
  if isHighUnit n || isLowUnit n then '\uFFFD' else Char.ofNat n

/-- The character after `\u`: two units make one when they form a pair. -/
def readUnit? (t : Text) : Option (Char × Text) := do
  let (high, rest) ← hexFour? t
  if isHighUnit high then
    match rest with
    | '\\' :: 'u' :: t =>
        match hexFour? t with
        | some (low, rest') =>
            if isLowUnit low then
              some (Char.ofNat (0x10000 + (high - 0xD800) * 0x400 + (low - 0xDC00)), rest')
            else some (unitChar high, rest)
        | none => none
    | _ => some (unitChar high, rest)
  else some (unitChar high, rest)

/-- The character that a letter or mark after a backslash stands for. -/
def escapeChar? (c : Char) : Option Char :=
  if c = '\x22' ∨ c = '\\' ∨ c = '/' then some c
  else (lettered.find? fun entry => entry.2 = c).map Prod.fst

/-- The rest of a string after its opening quotation mark. -/
def readString? : (fuel : Nat) → Text → Option (Text × Text)
  | 0, _ => none
  | fuel + 1, t =>
      match t with
      | [] => none
      | '\x22' :: rest => some ([], rest)
      | '\\' :: 'u' :: rest => do
          let (c, rest) ← readUnit? rest
          let (text, rest) ← readString? fuel rest
          some (c :: text, rest)
      | '\\' :: c :: rest => do
          let c ← escapeChar? c
          let (text, rest) ← readString? fuel rest
          some (c :: text, rest)
      | c :: rest =>
          if c.toNat < 0x20 ∨ c = '\\' then none
          else do
            let (text, rest) ← readString? fuel rest
            some (c :: text, rest)

/-- The values that are written as a word. -/
def wordValues : List (Text × Json) :=
  [("null", .null), ("true", .bool true), ("false", .bool false),
   ("NaN", .number .notANumber), ("Infinity", .number (.infinite false)),
   ("-Infinity", .number (.infinite true))]

/-- A value that is written as a word or a number, and what follows it. -/
def readAtom? (t : Text) : Option (Json × Text) :=
  match wordValues.findSome? fun (word, value) => (Text.after? word t).map (value, ·) with
  | some found => some found
  | none => (Number.read? t).map fun (n, rest) => (.number n, rest)

/-! ## 2. Values -/

mutual

/-- The value at the start of a text, and what follows it. -/
def readValue? : (fuel : Nat) → Text → Option (Json × Text)
  | 0, _ => none
  | fuel + 1, t =>
      match t with
      | '\x22' :: rest => (readString? (rest.length + 1) rest).map fun (s, r) => (.string s, r)
      | '[' :: rest =>
          match skipGaps rest with
          | ']' :: rest => some (.array [], rest)
          | rest => (readItems? fuel rest).map fun (items, r) => (.array items, r)
      | '{' :: rest =>
          match skipGaps rest with
          | '}' :: rest => some (.object [], rest)
          | rest =>
              (readMembers? fuel rest).map fun (members, r) =>
                (.object (Table.ofEntries members), r)
      | t => readAtom? t

/-- The items of an array up to its closing bracket. -/
def readItems? : (fuel : Nat) → Text → Option (List Json × Text)
  | 0, _ => none
  | fuel + 1, t => do
      let (item, rest) ← readValue? fuel t
      match skipGaps rest with
      | ']' :: rest => some ([item], rest)
      | ',' :: rest =>
          let (items, rest) ← readItems? fuel (skipGaps rest)
          some (item :: items, rest)
      | _ => none

/-- The members of an object up to its closing brace. -/
def readMembers? : (fuel : Nat) → Text → Option (List (Text × Json) × Text)
  | 0, _ => none
  | fuel + 1, t =>
      match t with
      | '\x22' :: rest => do
          let (key, rest) ← readString? (rest.length + 1) rest
          match skipGaps rest with
          | ':' :: rest =>
              let (value, rest) ← readValue? fuel (skipGaps rest)
              match skipGaps rest with
              | '}' :: rest => some ([(key, value)], rest)
              | ',' :: rest =>
                  let (members, rest) ← readMembers? fuel (skipGaps rest)
                  some ((key, value) :: members, rest)
              | _ => none
          | _ => none
      | _ => none

end

/-- The value that a text writes, with nothing but blanks around it. -/
def read? (t : Text) : Option Json := do
  let (value, rest) ← readValue? (2 * t.length + 1) (skipGaps t)
  if (skipGaps rest).isEmpty then some value else none

end Transcription.Json
