/-
Transcription.Number.Binary — binary64 numbers as exact values: the one
nearest to a fraction, and the shortest decimal that reads back as it.

A positive finite number is `mantissa · 2 ^ exponent`. All comparisons are
between natural numbers, so nothing is rounded but the result.
-/

namespace Transcription.Number

/-! ## 1. The nearest number -/

/-- The positive value `mantissa · 2 ^ exponent`; the mantissa has 53 bits,
or fewer at the least exponent. -/
structure Binary where
  mantissa : Nat
  exponent : Int
  deriving DecidableEq, Repr

/-- The least mantissa of 53 bits: only its leading bit is set. -/
def leadingBit : Nat := Nat.pow 2 52

/-- The least exponent of a binary64 number. -/
def leastExponent : Int := -1074

/-- The greatest exponent of a finite binary64 number. -/
def greatestExponent : Int := 971

/-- The fraction `num / den` divided by `2 ^ q`, as a fraction. -/
def scaleDown (num den : Nat) (q : Int) : Nat × Nat :=
  if q < 0 then (num * Nat.pow 2 q.natAbs, den) else (num, den * Nat.pow 2 q.natAbs)

/-- The quotient rounded to the nearest integer, a half to the even one. -/
def roundHalfEven (num den : Nat) : Nat :=
  let quotient := num / den
  let remainder := num % den
  if 2 * remainder < den then quotient
  else if den < 2 * remainder then quotient + 1
  else quotient + quotient % 2

/-- The exponent at which the mantissa of `num / den` has 53 bits, or the
least exponent. -/
def exponentOf (num den : Nat) : Int :=
  let estimate : Int := (num.log2 : Int) - den.log2 - 52
  let (n, d) := scaleDown num den estimate
  let exact := if n / d < leadingBit then estimate - 1 else estimate
  if exact < leastExponent then leastExponent else exact

/-- The binary64 number nearest to the positive fraction `num / den`, or
nothing when it is beyond the greatest finite one. -/
def nearest? (num den : Nat) : Option Binary :=
  let q := exponentOf num den
  let (n, d) := scaleDown num den q
  let m := roundHalfEven n d
  let rounded : Binary := if m = 2 * leadingBit then ⟨leadingBit, q + 1⟩ else ⟨m, q⟩
  if greatestExponent < rounded.exponent then none else some rounded

/-! ## 2. The shortest decimal -/

/-- How many decimal digits a number has; zero has one. -/
def digitCount (n : Nat) : Nat :=
  if n < 10 then 1 else digitCount (n / 10) + 1
termination_by n

/-- The fraction `num / den` divided by `10 ^ k`, as a fraction. -/
def scaleDownTen (num den : Nat) (k : Int) : Nat × Nat :=
  if k < 0 then (num * Nat.pow 10 k.natAbs, den) else (num, den * Nat.pow 10 k.natAbs)

/-- The greatest `e` with `10 ^ e ≤ num / den`. -/
def leadingPower (num den : Nat) : Int :=
  if den ≤ num then (digitCount (num / den) : Int) - 1
  else -(digitCount ((den - 1) / num) : Int)

/-- The values that round to a number, as the fractions `low / den` and
`high / den` around `value / den`; the ends belong to it when the mantissa
is even. -/
structure Interval where
  low : Nat
  value : Nat
  high : Nat
  den : Nat
  closed : Bool

/-- The values that round to a binary64 number. The gap below a power of
two is half the gap above it. -/
def Binary.interval (b : Binary) : Interval :=
  let below := if b.mantissa = leadingBit ∧ leastExponent < b.exponent then 1 else 2
  let (unit, den) := scaleDown 1 1 (2 - b.exponent)
  { low := (4 * b.mantissa - below) * unit
    value := 4 * b.mantissa * unit
    high := (4 * b.mantissa + 2) * unit
    den := den
    closed := b.mantissa % 2 = 0 }

/-- Whether `n · 10 ^ k` rounds to the number of the interval. -/
def Interval.holds (i : Interval) (n : Nat) (k : Int) : Bool :=
  let (unit, den) := scaleDownTen 1 i.den k
  if i.closed then i.low * unit ≤ n * den && n * den ≤ i.high * unit
  else i.low * unit < n * den && n * den < i.high * unit

/-- The neighbours of the value on the grid of multiples of `10 ^ k` that
round back to it; of two the nearer one, and of two equally near ones the
even one. -/
def Interval.onGrid? (i : Interval) (k : Int) : Option Nat :=
  let (num, den) := scaleDownTen i.value i.den k
  let below := num / den
  let remainder := num % den
  match i.holds below k, i.holds (below + 1) k with
  | false, false => none
  | true, false => some below
  | false, true => some (below + 1)
  | true, true =>
      if 2 * remainder < den ∨ 2 * remainder = den ∧ below % 2 = 0 then some below
      else some (below + 1)

/-- The digits and the power of ten of the first grid with a decimal that
reads back, from `count` significant digits on. -/
def Interval.shortest (i : Interval) (lead : Int) : (fuel count : Nat) → Nat × Int
  | 0, count =>
      let k := lead + 1 - count
      let (num, den) := scaleDownTen i.value i.den k
      (num / den, k)
  | fuel + 1, count =>
      let k := lead + 1 - count
      match i.onGrid? k with
      | some n => (n, k)
      | none => i.shortest lead fuel (count + 1)

/-- The digits and the power of ten of the shortest decimal that reads back
as the number. Seventeen digits are always enough. -/
def Binary.shortest (b : Binary) : Nat × Int :=
  let i := b.interval
  i.shortest (leadingPower i.value i.den) 17 1

end Transcription.Number
