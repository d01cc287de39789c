/-
Transcription.Text.Quoted — text in quotation marks, the way messages show it.

Text is quoted with `'`, or with `"` when it holds `'` but no `"`. The
backslash and the quotation mark in use are written after a backslash,
line feed, carriage return and tabulator by their letters, and a character
that cannot be shown by its code point in two, four or eight hexadecimal
digits.
-/
import Transcription.Text.Basic
import Transcription.Unicode.Printable

namespace Transcription.Text

/-- The lower-case hexadecimal digit of a number below sixteen. -/
def hexDigit (n : Nat) : Char :=
  if n < 10 then digit n else Char.ofNat ('a'.toNat + (n - 10))

/-- The last `width` hexadecimal digits of a number. -/
def hexDigits : (width : Nat) → Nat → Text
  | 0, _ => []
  | width + 1, n => hexDigits width (n / 16) ++ [hexDigit (n % 16)]

/-- The characters with a letter of their own. -/
def lettered : List (Char × Char) :=
  [('\n', 'n'), ('\r', 'r'), ('\t', 't')]

/-- The digits of a character that cannot be shown, after the letter that
tells their number. -/
def codePoint (c : Char) : Text :=
  if c.toNat < 0x100 then 'x' :: hexDigits 2 c.toNat
  else if c.toNat < 0x10000 then 'u' :: hexDigits 4 c.toNat
  else 'U' :: hexDigits 8 c.toNat

/-- One character between the quotation marks `mark`. -/
def quotedChar (mark c : Char) : Text :=
  if c = mark ∨ c = '\\' then ['\\', c]
  else
    match lettered.lookup c with
    | some letter => ['\\', letter]
    | none => if isPrintable c then [c] else '\\' :: codePoint c

/-- The quotation mark for a text. -/
def quotationMark (t : Text) : Char :=
  if t.contains '\x27' && !t.contains '\x22' then '\x22' else '\x27'

/-- The text in quotation marks. -/
def quoted (t : Text) : Text :=
  let mark := quotationMark t
  mark :: t.flatMap (quotedChar mark) ++ [mark]

end Transcription.Text
