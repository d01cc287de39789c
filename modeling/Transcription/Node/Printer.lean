/-
Transcription.Node.Printer — nodes as transcription text.

Every node has one written form. A break inside a word is written after
`~` with its label in braces, so that what follows it is not read as part
of the label.
-/
import Transcription.Node.Basic

namespace Transcription

/-- The sign of a break. -/
def BreakKind.sign : BreakKind → Text
  | .line => "//"
  | .page => "///"

/-- Whether the label of a break outside a word can stand without braces: a
line label of digits, a page label without blanks that starts with no
brace. -/
def BreakKind.bareLabel : BreakKind → Text → Bool
  | .line, label => label.all Text.isDigit
  | .page, label => !(label.head? == some '{' || label.any isBlank)

/-- A break with its label, inside a word or outside. -/
def BreakKind.write (kind : BreakKind) (label : Option Text) (inWord : Bool) : Text :=
  let sign := if inWord then '~' :: kind.sign else kind.sign
  let label := label.getD []
  if label.isEmpty then sign
  else if !inWord && kind.bareLabel label then sign ++ label
  else sign ++ '{' :: label ++ ['}']

/-- The sign before the braces of a mark; a supplied text has angle
brackets instead. -/
def Mark.opening : Mark → Text
  | .supplied => ['<']
  | .deletion => ['-', '{']
  | .addition => ['+', '{']
  | .note => ['^', '{']
  | .unclear => ['?', '{']

/-- The signs after the text of a mark. -/
def Mark.closing : Mark → Text
  | .supplied => ['>']
  | .deletion => ['}', '-']
  | .addition => ['}', '+']
  | .note => ['}']
  | .unclear => ['}', '?']

/-- The name of a block. -/
def BlockKind.name : BlockKind → Text
  | .supplied => "supplied"
  | .head => "head"
  | .norm => "norm"

/-- What a block begins with. -/
def BlockKind.opening (kind : BlockKind) : Text :=
  '.' :: kind.name ++ ['{']

namespace Node

/-- A gap with its quantity and its reading. -/
def writeGap (quantity : Option Nat) (reading : Option Text) : Text :=
  "[..." ++ (quantity.map Text.ofNat).getD []
    ++ (reading.map fun t => '<' :: t ++ ['>']).getD [] ++ [']']

mutual

/-- A node as transcription text, inside a word or outside. -/
def writeIn (inWord : Bool) : Node → Text
  | .text content => content
  | .abbreviation abbr expansion => ".abbr[" ++ abbr ++ ']' :: '{' :: expansion ++ ['}']
  | .gap quantity reading => writeGap quantity reading
  | .marked mark content => mark.opening ++ content ++ mark.closing
  | .entity name => ':' :: name ++ [':']
  | .compoundJoin | .continuation => ['~']
  | .boundary => ['|']
  | .lineBreak label => BreakKind.line.write label inWord
  | .pageBreak label => BreakKind.page.write (some label) inWord
  | .block kind body => kind.opening ++ body ++ ['}']
  | .group _ children => writeChildren children

/-- The children of a group, one after the other. -/
def writeChildren : List Node → Text
  | [] => []
  | n :: ns => writeIn true n ++ writeChildren ns

end

/-- A node as transcription text. -/
def write (n : Node) : Text :=
  n.writeIn false

end Node

end Transcription
