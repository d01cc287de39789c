/-
Transcription.Xml.Name — the characters of documents and of names in them.
-/
import Transcription.Unicode.Ranges
import Transcription.Xml.Basic

namespace Transcription.Xml

/-- The ranges of the code points that a document may hold. -/
def documentRanges : Unicode.Ranges :=
  [(0x9, 0xA), (0xD, 0xD), (0x20, 0xD7FF), (0xE000, 0xFFFD), (0x10000, 0x10FFFF)]

/-- The ranges of the characters that begin a name, the colon left out. -/
def nameStartRanges : Unicode.Ranges :=
  [(0x41, 0x5A), (0x5F, 0x5F), (0x61, 0x7A), (0xC0, 0xD6), (0xD8, 0xF6), (0xF8, 0x2FF),
   (0x370, 0x37D), (0x37F, 0x1FFF), (0x200C, 0x200D), (0x2070, 0x218F), (0x2C00, 0x2FEF),
   (0x3001, 0xD7FF), (0xF900, 0xFDCF), (0xFDF0, 0xFFFD), (0x10000, 0xEFFFF)]

/-- The ranges of the characters that may follow in a name besides. -/
def nameMoreRanges : Unicode.Ranges :=
  [(0x2D, 0x2E), (0x30, 0x39), (0xB7, 0xB7), (0x300, 0x36F), (0x203F, 0x2040)]

/-- Whether a document may hold a code point. -/
def isDocumentPoint (n : Nat) : Bool :=
  documentRanges.covers n

/-- Whether a character begins a name. -/
def isNameStart (c : Char) : Bool :=
  nameStartRanges.covers c.toNat

/-- Whether a character may follow in a name. -/
def isNameMore (c : Char) : Bool :=
  isNameStart c || nameMoreRanges.covers c.toNat

/-- The blanks of a document. -/
def isSpace (c : Char) : Bool :=
  c = ' ' || c = '\t' || c = '\n' || c = '\r'

/-- What follows the blanks at the start. -/
def skipSpace (t : Text) : Text :=
  t.dropWhile isSpace

/-- What follows at least one blank. -/
def afterSpace? : Text → Option Text
  | [] => none
  | c :: t => if isSpace c then some (skipSpace t) else none

/-- The name at the start of a text, when `starts` tells what begins a name
and `goesOn` what follows in it. -/
def nameBy? (starts goesOn : Char → Bool) : Text → Option (Text × Text)
  | [] => none
  | c :: t =>
      if starts c then
        let (more, rest) := Text.span goesOn t
        some (c :: more, rest)
      else none

/-- The name at the start of a text, without colons. -/
def simpleName? : Text → Option (Text × Text) :=
  nameBy? isNameStart isNameMore

/-- What goes on in a name where a colon counts as a letter. -/
def isNameRest (c : Char) : Bool :=
  isNameMore c || c = ':'

/-- The name at the start of a text, where a colon counts as a letter. -/
def fullName? : Text → Option (Text × Text) :=
  nameBy? (fun c => isNameStart c || c = ':') isNameRest

/-- The name at the start of a text, if it is made of one part, or of two with
a colon between them of which the first is the qualifier. -/
def properName? (t : Text) : Option (QName × Text) :=
  match simpleName? t with
  | some (first, ':' :: rest) =>
      match simpleName? rest with
      | none | some (_, ':' :: _) => none
      | some (base, rest) => some (⟨first, base⟩, rest)
  | found => found.map fun (name, rest) => (⟨[], name⟩, rest)

/-- The name at the start of a text with its qualifier. A name that is made
otherwise is read all the same: it has no qualifier and keeps its colons. -/
def qualifiedName? (t : Text) : Option (QName × Text) :=
  (properName? t).or ((fullName? t).map fun (name, rest) => (⟨[], name⟩, rest))

/-- The name that is written as a text: its qualifier stands before the first
colon. -/
def QName.ofText (t : Text) : QName :=
  match Text.upTo? ':' t with
  | some (c :: qualifier, base) => ⟨c :: qualifier, base⟩
  | _ => ⟨[], t⟩

/-- The longest sequence of characters of names at the start of a text, in
any order, if there is one. -/
def nameToken? (t : Text) : Option (Text × Text) :=
  let (token, rest) := Text.span isNameRest t
  if token.isEmpty then none else some (token, rest)

end Transcription.Xml
