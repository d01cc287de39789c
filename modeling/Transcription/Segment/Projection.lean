/-
Transcription.Segment.Projection — a list of segments as transcription text
to edit.

Words are separated by a blank where there was one before them, and
punctuation attaches to what comes before it. A line break starts a new
line, and a page break stands on a line of its own. What cannot be edited
does not appear.
-/
import Transcription.Segment.Basic

namespace Transcription.Segment

/-- What has been written so far: the last piece if there is one, whether a
blank is due before the next word, and whether a page break came last. -/
structure Cursor where
  last : Option Text
  spaceDue : Bool
  afterPage : Bool

/-- Nothing written. -/
def Cursor.start : Cursor :=
  ⟨none, false, false⟩

/-- The cursor after a piece of text. -/
def Cursor.wrote (piece : Text) : Cursor :=
  ⟨some piece, false, false⟩

/-- Whether a blank calls for a space: a space, a tabulator or a line
feed. -/
def isSeparating (content : Text) : Bool :=
  content.any fun c => c = ' ' || c = '\t' || c = '\n'

/-- What separates a word from the text before it. -/
def Cursor.beforeWord (c : Cursor) : Text :=
  if c.afterPage then ['\n']
  else
    match c.last with
    | some piece => if c.spaceDue && !piece.endsIn ' ' then [' '] else []
    | none => []

/-- What separates a punctuation mark from the text before it. -/
def Cursor.beforePunctuation (c : Cursor) : Text :=
  if c.afterPage then ['\n'] else []

/-- The text of a segment after a cursor, and the cursor after it. -/
def project (c : Cursor) : Segment → Text × Cursor
  | .word _ _ dsl _ _ => (c.beforeWord ++ dsl, .wrote dsl)
  | .punctuation _ _ dsl => (c.beforePunctuation ++ dsl, .wrote dsl)
  | .milestone .line _ attrs =>
      let piece := '\n' :: breakText .line attrs ++ [' ']
      (piece, .wrote piece)
  | .milestone .page _ attrs =>
      let piece := '\n' :: breakText .page attrs
      (piece, ⟨some piece, false, true⟩)
  | .whitespace _ content => ([], { c with spaceDue := c.spaceDue || isSeparating content })
  | _ => ([], c)

/-- The text of a list of segments after a cursor. -/
def projectFrom (c : Cursor) : List Segment → Text
  | [] => []
  | s :: ss => (project c s).1 ++ projectFrom (project c s).2 ss

/-- The transcription text of a list of segments. -/
def toText (ss : List Segment) : Text :=
  Text.trim (projectFrom .start ss)

end Transcription.Segment
