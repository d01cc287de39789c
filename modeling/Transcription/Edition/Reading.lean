/-
Transcription.Edition.Reading — the three readings of a word.

The facsimile shows what is on the page: named characters stay references
unless they are reduced, abbreviations show their short form, and what the
editor supplied is left out. The diplomatic reading resolves named
characters, expands abbreviations and shows what was supplied. The
normalized reading is the diplomatic one with the substitutions of the
dictionary applied and the joints of compounds closed. Breaks and blocks
have no reading.
-/
import Transcription.Edition.Apparatus
import Transcription.Markup
import Transcription.Node.Basic

namespace Transcription

/-- The mark of a gap, with the number of lost characters if it is known. -/
def Markup.gap : Option Nat → Text
  | none => "<gap reason=\"illegible\"/>"
  | some n => "<gap reason=\"illegible\" quantity=\"" ++ Text.ofNat n ++ "\" unit=\"chars\"/>"

/-- The element of a mark. -/
def Mark.tag : Mark → Text
  | .supplied => "supplied"
  | .deletion => "del"
  | .addition => "add"
  | .note => "note"
  | .unclear => "unclear"

namespace Apparatus

/-- A named character at the diplomatic level, unless it stays a
reference. -/
def resolved (a : Apparatus) (name : Text) : Option Text :=
  (a.reduced name).or (a.registry.resolve name)

/-- The facsimile reading of a node. -/
def facsimileOf (a : Apparatus) : Node → Text
  | .text content => Markup.escape content
  | .entity name =>
      match a.reduced name with
      | some letters => Markup.escape letters
      | none => Markup.reference name
  | .abbreviation abbr _ => Markup.element "abbr" abbr
  | .gap quantity _ => Markup.gap quantity
  | .marked .supplied _ => []
  | .marked mark content => Markup.element mark.tag content
  | .compoundJoin => [' ']
  | _ => []

/-- The supplied reading of a gap, unless it is absent or empty. -/
def gapReading : Option Text → Text
  | none => []
  | some t => if t.isEmpty then [] else Markup.element "supplied" t

/-- The diplomatic reading of a node. -/
def diplomaticOf (a : Apparatus) : Node → Text
  | .text content => Markup.escape content
  | .entity name =>
      match a.resolved name with
      | some letters => Markup.escape letters
      | none => Markup.reference name
  | .abbreviation _ expansion => Markup.element "expan" expansion
  | .gap _ reading => gapReading reading
  | .marked mark content => Markup.element mark.tag content
  | .compoundJoin => [' ']
  | _ => []

/-- The normalized reading of a node. The reading of a gap is left out only
when it is empty before the substitutions. -/
def normalizedOf (a : Apparatus) : Node → Text
  | .text content => Markup.escape (a.normalize content)
  | .entity name =>
      match a.resolved name with
      | some letters => Markup.escape (a.normalize letters)
      | none => Markup.reference name
  | .abbreviation _ expansion => Markup.element "expan" (a.normalize expansion)
  | .gap _ none => []
  | .gap _ (some t) => if t.isEmpty then [] else Markup.element "supplied" (a.normalize t)
  | .marked mark content => Markup.element mark.tag (a.normalize content)
  | _ => []

/-- The facsimile reading of a word. -/
def facsimile (a : Apparatus) (ns : List Node) : Text :=
  ns.flatMap a.facsimileOf

/-- The diplomatic reading of a word. -/
def diplomatic (a : Apparatus) (ns : List Node) : Text :=
  ns.flatMap a.diplomaticOf

/-- The normalized reading of a word. -/
def normalized (a : Apparatus) (ns : List Node) : Text :=
  ns.flatMap a.normalizedOf

end Apparatus

/-- The readings of a word or punctuation mark. -/
structure Readings where
  facsimile : Text
  diplomatic : Text
  normalized : Text
  deriving DecidableEq, Repr

namespace Readings

/-- Whether there is nothing to show at any level. -/
def isEmpty (r : Readings) : Bool :=
  r.facsimile.isEmpty && r.diplomatic.isEmpty && r.normalized.isEmpty

/-- An element with the readings inside a choice, its attributes and notes
given as markup. -/
def write (r : Readings) (tag attrs notes : Text) : Text :=
  '<' :: tag ++ attrs ++ ">\n  <choice>\n    <me:facs>" ++ r.facsimile
    ++ "</me:facs>\n    <me:dipl>" ++ r.diplomatic
    ++ "</me:dipl>\n    <me:norm>" ++ r.normalized
    ++ "</me:norm>\n  </choice>" ++ notes ++ "\n</" ++ tag ++ ">\n"

end Readings

end Transcription
