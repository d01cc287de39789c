/-
Transcription.Segment.Basic — the segments that the body of a tagged
document is cut into.

Words, punctuation marks and line and page breaks can be edited; all other
segments stay as they are. Every segment has a number by which changes
address it.
-/
import Transcription.Markup
import Transcription.Node.Printer

namespace Transcription

/-- Milestones: empty elements that mark a place. -/
inductive Milestone where
  | line
  | page
  | hand
  deriving DecidableEq, Repr

/-- The name of the element of a milestone. -/
def Milestone.tag : Milestone → Text
  | .line => "lb"
  | .page => "pb"
  | .hand => "handShift"

/-- A segment of a tagged document. -/
inductive Segment where
  /-- Markup that is kept as it stands. -/
  | structural (id : Int) (xml : Text)
  /-- A word with its markup, its transcription, the attributes of its
  element and whether a line break stands inside it. -/
  | word (id : Int) (xml dsl : Text) (attrs : Table Text) (breaksLine : Bool)
  | punctuation (id : Int) (xml dsl : Text)
  | milestone (kind : Milestone) (id : Int) (attrs : Table Text)
  | whitespace (id : Int) (content : Text)
  deriving DecidableEq, Repr

namespace Segment

/-- The number of a segment. -/
def id : Segment → Int
  | .structural id _ | .word id _ _ _ _ | .punctuation id _ _ | .milestone _ id _
  | .whitespace id _ => id

/-- Whether a segment can be edited. -/
def isContent : Segment → Bool
  | .word _ _ _ _ _ | .punctuation _ _ _ | .milestone .line _ _ | .milestone .page _ _ => true
  | _ => false

/-- The markup of a segment that stays as it is. -/
def serialize : Segment → Text
  | .structural _ xml | .word _ xml _ _ _ | .punctuation _ xml _ => xml
  | .milestone kind _ attrs => Markup.emptyTag kind.tag attrs
  | .whitespace _ content => content

/-- The transcription of a break with the attributes of its element. -/
def breakText (kind : BreakKind) (attrs : Table Text) : Text :=
  kind.write (attrs.get? "n") false

end Segment

end Transcription
