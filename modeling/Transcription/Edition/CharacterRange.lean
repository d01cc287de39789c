/-
Transcription.Edition.CharacterRange — elements around ranges of characters
in the facsimile of a word.

Positions count the visible characters: tags are passed over and a
reference counts as one. A range runs from its start up to, but not
including, its end. Of ranges with the same start the longest opens first,
so that nested ranges give nested elements.
-/
import Transcription.Edition.Apparatus
import Transcription.Markup

namespace Transcription

/-- A range of visible characters and what is special about them. -/
structure CharacterRange where
  start : Int
  stop : Int
  kind : Text
  deriving DecidableEq, Repr

namespace CharacterRange

/-! ## 1. The ranges of a word -/

/-- The range that a remark gives, unless it is empty. -/
def ofRemark? (r : Remark) : Option CharacterRange :=
  match r.topic, r.target, r.value with
  | .paleographic, .characters _ start stop, .handbook o =>
      match o.aspect, o.characterKind with
      | .character, some kind =>
          if start < stop then some ⟨start, stop, Vocabulary.word kind⟩ else none
      | _, _ => none
  | _, _, _ => none

/-- Whether a range opens no later than another: by start, the longer one
first. -/
def opensBefore (a b : CharacterRange) : Bool :=
  decide (a.start < b.start) || (a.start == b.start && decide (b.stop ≤ a.stop))

/-- The ranges of a word in the order in which they open. -/
def ofWord (a : Apparatus) (index : Int) : List CharacterRange :=
  ((a.remarksOn index).filterMap ofRemark?).mergeSort opensBefore

/-! ## 2. Units of markup -/

/-- A tag, or a visible character written as itself or as a reference. -/
inductive Piece where
  | tag (text : Text)
  | visible (text : Text)
  deriving DecidableEq, Repr

/-- The text up to and including the first `mark`, or all of it. -/
def through (mark : Char) (t : Text) : Text × Text :=
  match Text.upTo? mark t with
  | some (before, rest) => (before ++ [mark], rest)
  | none => (t, [])

theorem length_through (mark : Char) (t : Text) : (through mark t).2.length ≤ t.length := by
  unfold through
  split
  · next before rest h =>
    rw [Text.upTo?_eq h]
    simp only [List.length_append, List.length_cons]
    omega
  · exact Nat.zero_le _

/-- Markup cut into tags and visible characters. -/
def pieces (t : Text) : List Piece :=
  match t with
  | [] => []
  | c :: t =>
      if c = '<' then .tag (c :: (through '>' t).1) :: pieces (through '>' t).2
      else if c = '&' then .visible (c :: (through ';' t).1) :: pieces (through ';' t).2
      else .visible [c] :: pieces t
termination_by t.length
decreasing_by
  · exact Nat.lt_succ_of_le (length_through '>' t)
  · exact Nat.lt_succ_of_le (length_through ';' t)
  · exact Nat.lt_succ_self _

/-! ## 3. Elements around ranges -/

/-- The tag that opens a range. -/
def openTag (r : CharacterRange) : Text :=
  "<c type=\"" ++ Markup.escape r.kind ++ "\">"

/-- The tags that close some ranges. -/
def closeTags (count : Nat) : Text :=
  (List.replicate count "</c>".toList).flatten

/-- The tags of the ranges that start at a position, the ends of these
ranges, and the ranges after them. -/
def openAt (index : Int) : List CharacterRange → Text × List Int × List CharacterRange
  | [] => ([], [], [])
  | r :: rest =>
      if r.start = index then
        let (tags, stops, later) := openAt index rest
        (r.openTag ++ tags, r.stop :: stops, later)
      else ([], [], r :: rest)

/-- Markup with the elements of the ranges that are still to open, the
ends of those that are open, and the position of the next visible
character. -/
def injectFrom (later : List CharacterRange) (stops : List Int) (index : Int) :
    List Piece → Text
  | [] => closeTags stops.length
  | .tag t :: ps => t ++ injectFrom later stops index ps
  | .visible t :: ps =>
      let (tags, opened, later) := openAt index later
      let stops := stops ++ opened
      tags ++ t ++ closeTags (stops.count (index + 1))
        ++ injectFrom later (stops.filter (· ≠ index + 1)) (index + 1) ps

/-- Markup with an element around each range. -/
def inject (xml : Text) (ranges : List CharacterRange) : Text :=
  if ranges.isEmpty then xml else injectFrom ranges [] 0 (pieces xml)

end CharacterRange

end Transcription
