/-
Transcription.Unicode.Ranges — a character class as an ascending list of
inclusive code point ranges, and membership in it.
-/

namespace Transcription.Unicode

/-- Inclusive code point ranges in ascending order, no two overlapping. -/
abbrev Ranges := List (Nat × Nat)

/-- Whether a code point lies in one of the ranges. The search stops at
the first range that begins above it, which is right because the ranges
ascend. -/
def Ranges.covers : Ranges → Nat → Bool
  | [], _ => false
  | (low, high) :: rest, n =>
      if n < low then false
      else if n ≤ high then true
      else covers rest n

end Transcription.Unicode
