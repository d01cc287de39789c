/-
Transcription.Patch.Basic — changes to a list of segments, and the tokens
that changes are computed from.
-/
import Transcription.Lexer.Basic
import Transcription.Node.Grouping
import Transcription.Segment.Projection

namespace Transcription

/-- A change: keep, change or delete the segment with a number, or insert
text. -/
inductive Patch where
  | keep (id : Int)
  | modify (id : Int) (dsl : Text)
  | insert (dsl : Text)
  | delete (id : Int)
  deriving DecidableEq, Repr

/-- The number of the segment that a change addresses. -/
def Patch.target? : Patch → Option Int
  | .keep id | .modify id _ | .delete id => some id
  | .insert _ => none

/-- A token of the text before its editing: its content and its segment. -/
structure Token where
  content : Text
  id : Int
  deriving DecidableEq, Repr

namespace Token

/-- The token of a segment that can be edited; a blank word has none. -/
def ofSegment? : Segment → Option Token
  | .word id _ dsl _ _ | .punctuation id _ dsl => if dsl.trim.isEmpty then none else some ⟨dsl, id⟩
  | .milestone .line id attrs => some ⟨Segment.breakText .line attrs, id⟩
  | .milestone .page id attrs => some ⟨Segment.breakText .page attrs, id⟩
  | _ => none

/-- The tokens of a list of segments. -/
def ofSegments (ss : List Segment) : List Token :=
  ss.filterMap ofSegment?

/-- The contents of the tokens of edited text. Text that cannot be read has
none. -/
def contents (dsl : Text) : List Text :=
  match Lexer.lex dsl with
  | .ok ns => (Node.grouped ns).map Node.write
  | .error _ => []

end Token

end Transcription
