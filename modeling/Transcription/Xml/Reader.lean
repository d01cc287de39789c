/-
Transcription.Xml.Reader — the element of a document.

A mark of the byte order at the start of a text is passed over. The text
after the declaration is read in the encoding that is declared, unless there
is such a mark. Line ends become line feeds in all that follows the document
type; the texts of declared names keep theirs.
-/
import Transcription.Xml.Prolog
import Transcription.Xml.Tree

namespace Transcription.Xml

/-- Whether a document may hold all characters of a text. -/
def isReadable (t : Text) : Bool :=
  t.all fun c => isDocumentPoint c.toNat

/-- The element of a document after its declaration. -/
def elementOf? (standalone : Bool) (t : Text) : Option Element := do
  let (prolog, rest) ← prolog? standalone t.length .none t
  let lexicon := Lexicon.ofDeclarations prolog.declarations t.length
  Building.ofTokens? lexicon prolog.tally (← tokens? (normalizeLines rest))

/-- The element of a document, or nothing when it is refused. -/
def read? (t : Text) : Option Element := do
  let (marked, t) := match t with
    | '\uFEFF' :: t => (true, t)
    | t => (false, t)
  let (declaration, rest) ← declarationOf? t
  let rest ← match declaration.encoding with
    | some name => if marked then some rest else decode? name rest
    | none => some rest
  if isReadable rest then elementOf? declaration.standalone rest else none

end Transcription.Xml
