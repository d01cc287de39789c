/-
Transcription.Import.Document — a tagged document as text to edit, along
with the manifest that the document is rebuilt from.
-/
import Transcription.Import.Segments
import Transcription.Manifest.Basic
import Transcription.Segment.Projection
import Transcription.Text.Quoted
import Transcription.Xml.Reader

namespace Transcription

/-- An imported document: its text to edit, its manifest and the markup of
its body. -/
structure Import where
  dsl : Text
  manifest : Manifest
  bodyXml : Text
  deriving DecidableEq, Repr

/-- Why a document cannot be imported. -/
inductive ImportFault where
  | malformed
  | noBody
  /-- An element whose name holds a colon. -/
  | invalidName (name : Text)
  deriving DecidableEq, Repr

/-- The text of a fault. -/
def ImportFault.message : ImportFault → Text
  | .malformed => "Failed to parse XML"
  | .noBody => "No <body> element found"
  | .invalidName name => "Invalid tag name " ++ Text.quoted name

namespace Import

/-! ## 1. Around the body -/

/-- The source around a body: the text before its opening tag, that tag,
and the text after its closing tag. -/
structure Sections where
  preamble : Text
  openTag : Text
  postamble : Text
  deriving DecidableEq, Repr

/-- Whether a character ends the name of a tag. -/
def endsName (c : Char) : Bool :=
  c = '>' || c = ' ' || c = '\t' || c = '\n' || c = '\r' || c = '/'

/-- The text before the first opening tag of a body, and the text from it
on. -/
def beforeBody? : Text → Option (Text × Text)
  | [] => none
  | c :: t =>
      let next := (beforeBody? t).map fun (before, rest) => (c :: before, rest)
      match Text.after? "<body" (c :: t) with
      | some (d :: _) => if endsName d then some ([], c :: t) else next
      | _ => next

/-- The sections of a source. Where no body is found, the first and last are
empty and the given tag stands for the second. -/
def sections (source fallback : Text) : Sections :=
  let found := do
    let (before, rest) ← beforeBody? source
    let (inTag, rest) ← Text.upTo? '>' rest
    let (_, after) ← Text.cut? "</body>" rest
    some (⟨before, inTag ++ ['>'], after⟩ : Sections)
  found.getD ⟨[], fallback, []⟩

/-! ## 2. Documents -/

/-- The body of a document: its element itself, or the first body in it. -/
def bodyOf? (root : Xml.Element) : Option Xml.Element :=
  if root.tag.localName = ("body" : Text) then some root
  else Xml.findFirst? "body" root.children

/-- The elements whose names are looked at: those before the body, and those
inside it. -/
def visited (root : Xml.Element) : List Xml.Element :=
  let before := (root :: Xml.descendantsAll root.children).takeWhile fun e =>
    e.tag.localName ≠ ("body" : Text)
  before ++ (bodyOf? root).elim [] fun body => Xml.descendantsAll body.children

/-- The first name that no element can have. -/
def invalidName? (root : Xml.Element) : Option Text :=
  ((visited root).map fun e => e.tag.localName).find? fun name => name.contains ':'

/-- The import of a document with its body found. -/
def ofBody (source : Text) (body : Xml.Element) : Import :=
  let segments := Import.segments body
  let around := sections source body.tag.opening
  { dsl := Segment.toText segments
    manifest :=
      { segments := segments
        isMultilevel := isMultilevel body
        preamble := around.preamble
        bodyOpenTag := around.openTag
        postamble := around.postamble }
    bodyXml := body.write }

/-- The import of a document, with a reader of markup: none where the markup is malformed. -/
def ofText (source : Text) (read : Text → Option Xml.Element := Xml.read?) :
    Except ImportFault Import :=
  match read source with
  | none => .error .malformed
  | some root =>
      match invalidName? root, bodyOf? root with
      | some name, _ => .error (.invalidName name)
      | none, none => .error .noBody
      | none, some body => .ok (ofBody source body)

end Import

end Transcription
