/-
Transcription.Patch.Reconstruction — the markup of a body after changes.

Segments that cannot be edited come out as they stand. Before each of the
others the insertions that are due are compiled; then the next operation is
applied if it addresses the segment, and otherwise the segment stays and
the operation waits.
-/
import Transcription.Edition.Document
import Transcription.Patch.Basic

namespace Transcription.Patch

/-- Whether edited text of a word is a heading. -/
def isHeading (dsl : Text) : Bool :=
  Text.startsWith (Text.trimStart dsl) BlockKind.head.opening

/-- A segment with new transcription text. Breaks stay as they are. -/
def recompile (s : Settings) (a : Apparatus) (dsl : Text) : Segment → Text
  | .word _ _ _ attrs _ =>
      if isHeading dsl then Edition.ofFragment s a dsl else Edition.ofWord s a dsl attrs
  | .punctuation _ _ _ => Edition.ofPunctuation s a dsl
  | segment => segment.serialize

/-- The operations from the first one that is no insertion, and the markup
of the insertions before it. -/
def insertions (s : Settings) (a : Apparatus) : List Patch → Text × List Patch
  | .insert dsl :: ops =>
      let (text, ops) := insertions s a ops
      (Edition.ofFragment s a dsl ++ text, ops)
  | ops => ([], ops)

/-- The markup of all insertions in a list of operations. -/
def allInsertions (s : Settings) (a : Apparatus) (ops : List Patch) : Text :=
  ops.flatMap fun
    | .insert dsl => Edition.ofFragment s a dsl
    | _ => []

/-- What an operation makes of the segment it addresses. -/
def apply (s : Settings) (a : Apparatus) (segment : Segment) : Patch → Text
  | .modify _ dsl => recompile s a dsl segment
  | .delete _ => []
  | _ => segment.serialize

/-- The markup of a list of segments after changes. -/
def reconstruct (s : Settings) (a : Apparatus) : List Segment → List Patch → Text
  | [], ops => allInsertions s a ops
  | segment :: segments, ops =>
      if segment.isContent then
        let (inserted, ops) := insertions s a ops
        match ops with
        | op :: later =>
            if op.target? = some segment.id then
              inserted ++ apply s a segment op ++ reconstruct s a segments later
            else inserted ++ segment.serialize ++ reconstruct s a segments (op :: later)
        | [] => inserted ++ segment.serialize ++ reconstruct s a segments []
      else segment.serialize ++ reconstruct s a segments ops

end Transcription.Patch
