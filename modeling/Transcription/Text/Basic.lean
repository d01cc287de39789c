/-
Transcription.Text.Basic — text as a list of code points: cutting it,
searching it, trimming blanks, splitting it into words, replacing parts of
it, decimal numerals and code point order.

Everything here is by recursion on the list, so that a statement about
text is a statement about lists.
-/
import Transcription.Unicode.Blank

namespace Transcription

/-- Text is a sequence of code points. -/
abbrev Text := List Char

/-- A literal may stand where text is wanted. -/
instance : Coe String Text := ⟨String.toList⟩

namespace Text

/-! ## 1. Cutting and searching -/

/-- What follows `opening` in a text that starts with it. -/
def after? : Text → Text → Option Text
  | [], t => some t
  | _ :: _, [] => none
  | a :: opening, c :: t => if a = c then after? opening t else none

/-- Whether the text starts with `opening`. -/
def startsWith (t opening : Text) : Bool :=
  (after? opening t).isSome

/-- The text before the first occurrence of `mark` and the text after it. -/
def cut? (mark : Text) : Text → Option (Text × Text)
  | [] => (after? mark []).map fun rest => ([], rest)
  | c :: t =>
      match after? mark (c :: t) with
      | some rest => some ([], rest)
      | none => (cut? mark t).map fun (before, rest) => (c :: before, rest)

/-- Whether `part` occurs in the text. -/
def holds (t part : Text) : Bool :=
  (cut? part t).isSome

/-- The text before the first `mark` and after it, for one character. -/
def upTo? (mark : Char) : Text → Option (Text × Text)
  | [] => none
  | c :: t =>
      if c = mark then some ([], t)
      else (upTo? mark t).map fun (before, rest) => (c :: before, rest)

theorem upTo?_eq {mark : Char} {before rest : Text} :
    ∀ {t : Text}, upTo? mark t = some (before, rest) → t = before ++ mark :: rest := by
  intro t
  induction t generalizing before with
  | nil => intro h; simp [upTo?] at h
  | cons c t ih =>
    intro h
    simp only [upTo?] at h
    split at h
    · next hc =>
      simp only [Option.some.injEq, Prod.mk.injEq] at h
      rw [← h.1, ← h.2, hc]; rfl
    · obtain ⟨⟨b, r⟩, hb, he⟩ := Option.map_eq_some_iff.1 h
      simp only [Prod.mk.injEq] at he
      rw [ih (by rw [hb, ← he.2]), ← he.1]; rfl

/-- The longest beginning whose characters all pass, and what follows it. -/
def span (p : Char → Bool) (t : Text) : Text × Text :=
  (t.takeWhile p, t.dropWhile p)

theorem span_append (p : Char → Bool) (t : Text) : (span p t).1 ++ (span p t).2 = t :=
  List.takeWhile_append_dropWhile

/-- The text put before each member of the list but the first. -/
def join (separator : Text) : List Text → Text
  | [] => []
  | [t] => t
  | t :: u :: rest => t ++ separator ++ join separator (u :: rest)

/-! ## 2. Blanks -/

/-- The text without its leading blanks. -/
def trimStart (t : Text) : Text :=
  t.dropWhile isBlank

/-- The text without its trailing blanks. -/
def trimEnd (t : Text) : Text :=
  (t.reverse.dropWhile isBlank).reverse

/-- The text without its leading and trailing blanks. -/
def trim (t : Text) : Text :=
  trimEnd (trimStart t)

/-- Whether the text holds blanks only. -/
def allBlank (t : Text) : Bool :=
  t.all isBlank

/-- The maximal runs of characters that are not blank. -/
def words : Text → List Text
  | [] => []
  | c :: t =>
      if isBlank c then words t
      else
        match t, words t with
        | d :: _, w :: ws => if isBlank d then [c] :: w :: ws else (c :: w) :: ws
        | _, ws => [c] :: ws

/-- The text ends with this character. -/
def endsIn (c : Char) (t : Text) : Bool :=
  t.getLast? == some c

/-! ## 3. Replacing -/

/-- Replace at most `limit` occurrences of the nonempty `old`, skipping the
rest of an occurrence that has just been replaced. -/
def replaceFrom (old new : Text) : Option Nat → Nat → Text → Text
  | _, _, [] => []
  | limit, skip + 1, _ :: t => replaceFrom old new limit skip t
  | limit, 0, c :: t =>
      if limit ≠ some 0 ∧ startsWith (c :: t) old then
        new ++ replaceFrom old new (limit.map (· - 1)) (old.length - 1) t
      else c :: replaceFrom old new limit 0 t

/-- Put `new` before each character and at the end, at most `limit` times. -/
def interleave (new : Text) : Option Nat → Text → Text
  | some 0, t => t
  | _, [] => new
  | limit, c :: t => new ++ c :: interleave new (limit.map (· - 1)) t

/-- Replace the occurrences of `old` from the left, at most `limit` of
them. The empty text occurs before each character and at the end. -/
def replace (t old new : Text) (limit : Option Nat) : Text :=
  if old.isEmpty then interleave new limit t else replaceFrom old new limit 0 t

/-! ## 4. Decimal numerals -/

/-- Whether a character is an ASCII digit. -/
def isDigit (c : Char) : Bool :=
  '0' ≤ c && c ≤ '9'

/-- The digit character of a number below ten. -/
def digit (n : Nat) : Char :=
  Char.ofNat ('0'.toNat + n)

/-- The decimal numeral of a number, without leading zeros. -/
def ofNat (n : Nat) : Text :=
  if n < 10 then [digit n] else ofNat (n / 10) ++ [digit (n % 10)]
termination_by n

/-- The decimal numeral of a number, with a sign when it is negative. -/
def ofInt : Int → Text
  | .ofNat n => ofNat n
  | .negSucc n => '-' :: ofNat (n + 1)

/-- The number that a sequence of digits stands for. -/
def digitsValue (t : Text) : Nat :=
  t.foldl (fun n c => 10 * n + (c.toNat - '0'.toNat)) 0

/-- The number that a nonempty sequence of ASCII digits stands for. -/
def toNat? (t : Text) : Option Nat :=
  if t.isEmpty || !t.all isDigit then none else some (digitsValue t)

/-- The number that a numeral with an optional minus sign stands for. -/
def toInt? : Text → Option Int
  | '-' :: t => (toNat? t).map fun n => -(n : Int)
  | t => (toNat? t).map fun n => (n : Int)

/-! ## 5. Order -/

/-- Lexicographic order by code point. -/
def le : Text → Text → Bool
  | [], _ => true
  | _ :: _, [] => false
  | a :: t, b :: u => if a = b then le t u else a.toNat < b.toNat

end Text

end Transcription
