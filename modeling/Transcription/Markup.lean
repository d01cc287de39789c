/-
Transcription.Markup — escaping, attributes and elements of the markup that
is written.

Compiled content and attribute values escape all five special characters;
text that goes back as it was read escapes three of them.
-/
import Transcription.Table

namespace Transcription.Markup

/-- A character with the five special ones as references. -/
def escapeChar (c : Char) : Text :=
  if c = '&' then "&amp;"
  else if c = '<' then "&lt;"
  else if c = '>' then "&gt;"
  else if c = '\x22' then "&quot;"
  else if c = '\x27' then "&apos;"
  else [c]

/-- Compiled content or an attribute value. -/
def escape (t : Text) : Text :=
  t.flatMap escapeChar

/-- A character with `&`, `<` and `>` as references. -/
def escapeTextChar (c : Char) : Text :=
  if c = '&' then "&amp;"
  else if c = '<' then "&lt;"
  else if c = '>' then "&gt;"
  else [c]

/-- Text content as it is written back. -/
def escapeText (t : Text) : Text :=
  t.flatMap escapeTextChar

/-- An attribute with a blank before it. -/
def attr (name value : Text) : Text :=
  ' ' :: name ++ "=\"" ++ escape value ++ "\""

/-- Attributes in the order given. -/
def attributes (attrs : Table Text) : Text :=
  attrs.flatMap fun (name, value) => attr name value

/-- An empty element with its attributes in the order of their names. -/
def emptyTag (name : Text) (attrs : Table Text) : Text :=
  '<' :: name ++ attributes attrs.sorted ++ "/>"

/-- An element around content that is written already. -/
def wrap (name content : Text) : Text :=
  '<' :: name ++ '>' :: content ++ "</" ++ name ++ ">"

/-- An element around text. -/
def element (name content : Text) : Text :=
  wrap name (escape content)

/-- A reference to a named character. -/
def reference (name : Text) : Text :=
  '&' :: name ++ [';']

/-- Text that could not be read, inside a comment. -/
def remark (label source : Text) : Text :=
  "<!-- " ++ label ++ ": " ++ escape source ++ " -->"

end Transcription.Markup
