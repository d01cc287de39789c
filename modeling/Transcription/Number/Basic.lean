/-
Transcription.Number.Basic — the numbers of data files: integers of any
size, and binary64 numbers held as their shortest decimals.

A binary64 number is written with the fewest digits that read back,
positionally from 10 ^ -4 up to 10 ^ 16 and with an exponent of at least
two digits and its sign elsewhere; a whole number keeps `.0`.
-/
import Transcription.Text.Basic
import Transcription.Number.Binary

namespace Transcription

/-- A number of a data file. -/
inductive Number where
  | integer (n : Int)
  /-- `digits · 10 ^ exponent`, negated when `negative`; the digits do not
  end in zero unless they are zero. -/
  | decimal (negative : Bool) (digits : Nat) (exponent : Int)
  | infinite (negative : Bool)
  | notANumber
  deriving DecidableEq, Repr

namespace Number

/-! ## 1. Reading -/

/-- A decimal without the zeros at its end. -/
def dropZeros : (fuel digits : Nat) → Int → Nat × Int
  | 0, digits, exponent => (digits, exponent)
  | fuel + 1, digits, exponent =>
      if digits ≠ 0 ∧ digits % 10 = 0 then dropZeros fuel (digits / 10) (exponent + 1)
      else (digits, exponent)

/-- The decimal of the binary64 number nearest to
`digits · 10 ^ exponent`. -/
def ofDecimal (negative : Bool) (digits : Nat) (exponent : Int) : Number :=
  let lead : Int := digitCount digits + exponent
  if digits = 0 ∨ lead < -330 then .decimal negative 0 0
  else if 310 < lead then .infinite negative
  else
    let (num, den) := scaleDownTen digits 1 (-exponent)
    match nearest? num den with
    | none => .infinite negative
    | some b =>
        if b.mantissa = 0 then .decimal negative 0 0
        else
          let (n, k) := b.shortest
          let (n, k) := dropZeros 20 n k
          .decimal negative n k

/-- The sign of an exponent, its digits and what follows. -/
def readExponent? : Text → Option (Int × Text)
  | '-' :: t => (nonempty (Text.span Text.isDigit t)).map fun (e, rest) => (-e, rest)
  | '+' :: t => nonempty (Text.span Text.isDigit t)
  | t => nonempty (Text.span Text.isDigit t)
where
  /-- The value of a nonempty run of digits. -/
  nonempty : Text × Text → Option (Int × Text)
    | ([], _) => none
    | (digits, rest) => some (Text.digitsValue digits, rest)

/-- The fraction digits after a point and what follows; without a digit
after the point there are none. -/
def readFraction : Text → Text × Text
  | '.' :: t =>
      match Text.span Text.isDigit t with
      | ([], _) => ([], '.' :: t)
      | (digits, rest) => (digits, rest)
  | t => ([], t)

/-- The exponent after `e` or `E` and what follows, if there is one. -/
def readPower : Text → Option Int × Text
  | c :: t =>
      if c = 'e' ∨ c = 'E' then
        match readExponent? t with
        | some (e, rest) => (some e, rest)
        | none => (none, c :: t)
      else (none, c :: t)
  | [] => (none, [])

/-- The whole part of a number: a zero, or digits that do not start with
one. -/
def readWhole? (t : Text) : Option (Text × Text) :=
  match t with
  | '0' :: rest => some (['0'], rest)
  | _ =>
      match Text.span Text.isDigit t with
      | ([], _) => none
      | parts => some parts

/-- A number without its sign, and what follows it. -/
def readUnsigned? (negative : Bool) (t : Text) : Option (Number × Text) := do
  let (whole, t) ← readWhole? t
  let (fraction, t) := readFraction t
  let (power, t) := readPower t
  if fraction.isEmpty ∧ power.isNone then
    let n : Int := Text.digitsValue whole
    some (.integer (if negative then -n else n), t)
  else
    let digits := Text.digitsValue (whole ++ fraction)
    some (ofDecimal negative digits (power.getD 0 - fraction.length), t)

/-- The number at the start of a text, and what follows it. -/
def read? : Text → Option (Number × Text)
  | '-' :: t => readUnsigned? true t
  | t => readUnsigned? false t

/-! ## 2. Writing -/

/-- The first power of ten that is written with an exponent. -/
def positionalEnd : Int := 16

/-- The least power of ten that is written positionally. -/
def positionalStart : Int := -4

/-- An exponent with its sign and at least two digits. -/
def writeExponent (e : Int) : Text :=
  let digits := Text.ofNat e.natAbs
  'e' :: (if e < 0 then '-' else '+') :: (if digits.length < 2 then '0' :: digits else digits)

/-- The digits with a point behind the first one. -/
def writePointed : Text → Text
  | [] => []
  | [d] => [d]
  | d :: ds => d :: '.' :: ds

/-- The decimal `digits · 10 ^ exponent`. -/
def writeDecimal (digits : Nat) (exponent : Int) : Text :=
  let ds := Text.ofNat digits
  let lead : Int := ds.length - 1 + exponent
  if digits = 0 then "0.0"
  else if lead < positionalStart ∨ positionalEnd ≤ lead then
    writePointed ds ++ writeExponent lead
  else if 0 ≤ exponent then ds ++ List.replicate exponent.natAbs '0' ++ ".0"
  else if lead < 0 then "0." ++ List.replicate (lead.natAbs - 1) '0' ++ ds
  else ds.take (lead.natAbs + 1) ++ '.' :: ds.drop (lead.natAbs + 1)

/-- The text of a number. -/
def write : Number → Text
  | .integer n => Text.ofInt n
  | .decimal negative digits exponent =>
      (if negative then ['-'] else []) ++ writeDecimal digits exponent
  | .infinite negative => (if negative then ['-'] else []) ++ "Infinity"
  | .notANumber => "NaN"

/-! ## 3. Comparing -/

/-- Whether the number is at least `tenths / 10`. No comparison holds of
the value that is not a number. -/
def atLeastTenths (tenths : Nat) : Number → Bool
  | .integer n => (tenths : Int) ≤ 10 * n
  | .decimal negative digits exponent =>
      if negative then decide (digits = 0 ∧ tenths = 0)
      else
        let (num, den) := scaleDownTen digits 1 (-exponent)
        tenths * den ≤ 10 * num
  | .infinite negative => !negative
  | .notANumber => false

/-- Whether the number is zero. -/
def isZero : Number → Bool
  | .integer n => n = 0
  | .decimal _ digits _ => digits = 0
  | _ => false

end Number

end Transcription
