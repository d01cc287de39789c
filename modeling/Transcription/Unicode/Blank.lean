/-
Transcription.Unicode.Blank — the blank characters: the twenty-nine code
points that separate words.

The set holds the ASCII and Latin-1 separators, the four information
separators U+001C to U+001F and the space separators of the Unicode
tables. The zero-width space U+200B and the byte order mark U+FEFF are
not in it.
-/
import Transcription.Unicode.Ranges

namespace Transcription

namespace Unicode

/-- The ranges of blank code points. -/
def blankRanges : Ranges :=
  [(0x9, 0xD), (0x1C, 0x20), (0x85, 0x85), (0xA0, 0xA0), (0x1680, 0x1680),
   (0x2000, 0x200A), (0x2028, 0x2029), (0x202F, 0x202F), (0x205F, 0x205F),
   (0x3000, 0x3000)]

end Unicode

/-- Whether a character separates words. -/
def isBlank (c : Char) : Bool :=
  Unicode.blankRanges.covers c.toNat

/-- A blank is none of the characters that are not. -/
theorem ne_of_isBlank {c d : Char} (hc : isBlank c = true) (hd : isBlank d = false) : c ≠ d := by
  rintro rfl
  rw [hc] at hd
  cases hd

end Transcription
