/-
Transcription.Session — editing a document: import it, change its text, and
write the document again with the changes.
-/
import Transcription.Import.Document
import Transcription.Patch.Alignment
import Transcription.Patch.Reconstruction

namespace Transcription

/-- The settings that a document is compiled with unless others are given:
its words are wrapped, with their levels if it has levels. -/
def Manifest.settings (m : Manifest) : Settings :=
  { Settings.plain with wordWrap := true, multiLevel := m.isMultilevel }

/-- A document with the changes that edited text makes to its body. -/
def Manifest.edited (m : Manifest) (dsl : Text) (s : Settings) (a : Apparatus) : Text :=
  m.document (Patch.reconstruct s a m.segments (Patch.compute m.segments dsl Patch.defaultLimit))

/-- A document in the course of its editing: the manifest of its last
import, its text as edited so far, and its source as last written. -/
structure Session where
  manifest : Manifest
  dsl : Text
  document : Text
  deriving DecidableEq, Repr

namespace Session

/-- A session that begins with the import of a document. -/
def start (source : Text) (read : Text → Option Xml.Element := Xml.read?) :
    Except ImportFault Session :=
  (fun i => ⟨i.manifest, i.dsl, source⟩) <$> Import.ofText source read

/-- The session with other text. -/
def edit (s : Session) (dsl : Text) : Session :=
  { s with dsl := dsl }

/-- The changes so far. -/
def patches (s : Session) (limit : Int) : List Patch :=
  Patch.compute s.manifest.segments s.dsl limit

/-- Write the document with the changes so far. -/
def save (s : Session) (settings : Settings) (a : Apparatus) : Session :=
  { s with document := s.manifest.edited s.dsl settings a }

/-- Begin again with the document as last written. -/
def reimport (s : Session) (read : Text → Option Xml.Element := Xml.read?) :
    Except ImportFault Session :=
  start s.document read

/-- The session with its manifest written to text and read again, and
whether that leaves its text the same. -/
def reload (s : Session) : Bool × Session :=
  let text := s.manifest.write none
  match Manifest.read? text with
  | some m => (m.write none = text, { s with manifest := m })
  | none => (false, s)

end Session

end Transcription
