/-
Transcription.Proofs.Leaves — grouping loses nothing and reorders nothing.

What grouping takes in and what it brings out are compared as streams of leaves: text
as its characters, everything else as the node it is. Grouping may drop blanks and the
two signs that steer it, and nothing more.

At each node the leaves of what is brought out and of the word that is kept are those
of the word before and of the node (`leaves_groupStep`); text is cut character by
character (`leaves_cutText`). So **`leaves_groups`**: whatever the nodes and the
punctuation marks, the stream that comes out is the stream that went in.
-/
import Transcription.Node.Grouping

namespace Transcription

/-- What a transcription consists of when its text is read one character at a time. -/
inductive Leaf where
  | char (c : Char)
  | node (n : Node)
  deriving Repr

namespace Node

open Pending

/-! ## 1. Streams -/

/-- The leaves of a node in a group: the characters of text, or the node itself. -/
def childLeaves : Node → List Leaf
  | .text content => content.map .char
  | n => [.node n]

/-- The leaves of a unit: those of its children, or the unit itself. -/
def leaves : Node → List Leaf
  | .group _ children => children.flatMap childLeaves
  | n => [.node n]

/-- The leaves of a node that is to be grouped: text without its blanks, nothing for
the signs that steer the grouping, and a unit as it is. -/
def sourceLeaves : Node → List Leaf
  | .text content => (content.filter fun c => !isBlank c).map .char
  | .continuation | .boundary => []
  | n => n.leaves

/-! ## 2. One node after the other -/

theorem leaves_closeWord (word : List Node) :
    (closeWord word).flatMap leaves = word.flatMap childLeaves := by
  cases word with
  | nil => rfl
  | cons n word => exact List.append_nil _

theorem leaves_textNode (run : Text) : (textNode run).flatMap childLeaves = run.map .char := by
  cases run with
  | nil => rfl
  | cons c run => exact List.append_nil _

/-- A word with a run of text at its end. -/
theorem leaves_run (word : List Node) (run : Text) :
    (word ++ textNode run).flatMap childLeaves = word.flatMap childLeaves ++ run.map .char := by
  rw [List.flatMap_append, leaves_textNode]

theorem leaves_closeWord_run (word : List Node) (run : Text) :
    (closeWord (word ++ textNode run)).flatMap leaves
      = word.flatMap childLeaves ++ run.map .char := by
  rw [leaves_closeWord, leaves_run]

/-- Cutting text keeps all of its characters but the blanks, after those of the word
and the run before it. -/
theorem leaves_cutText (marks : List Char) (t : Text) (word : List Node) (run : Text)
    (inWord : Bool) :
    (cutText marks t word run inWord).1.flatMap leaves
        ++ (cutText marks t word run inWord).2.1.flatMap childLeaves
      = word.flatMap childLeaves ++ run.map .char ++ sourceLeaves (.text t) := by
  induction t generalizing word run inWord with
  | nil =>
    show (word ++ textNode run).flatMap childLeaves = _ ++ []
    rw [leaves_run, List.append_nil]
  | cons c t ih =>
    -- after a blank or a punctuation mark the text is cut as it would be alone
    have fresh : (cutText marks t [] [] false).1.flatMap leaves
        ++ (cutText marks t [] [] false).2.1.flatMap childLeaves = sourceLeaves (.text t) :=
      ih [] [] false
    by_cases hb : isBlank c = true
    · have dropped : sourceLeaves (.text (c :: t)) = sourceLeaves (.text t) := by
        simp [sourceLeaves, hb]
      rw [cutText_blank hb, List.flatMap_append, leaves_closeWord_run, List.append_assoc, fresh,
        dropped]
    · have kept : sourceLeaves (.text (c :: t)) = .char c :: sourceLeaves (.text t) := by
        simp [sourceLeaves, hb]
      by_cases hm : marks.contains c = true
      · rw [cutText_mark hb hm]
        simp only [List.flatMap_append, List.flatMap_cons, leaves_closeWord_run,
          List.append_assoc, fresh, kept]
        rfl
      · rw [cutText_inside hb hm, ih, kept, List.map_append, List.append_assoc, List.append_assoc,
          List.append_assoc]
        rfl

/-- What a step brings out and what it keeps have the leaves that there were. -/
theorem leaves_groupStep (marks : List Char) (p : Pending) (n : Node) :
    (groupStep marks p n).1.flatMap leaves ++ (groupStep marks p n).2.word.flatMap childLeaves
      = p.word.flatMap childLeaves ++ sourceLeaves n := by
  have alone (hn : n.leaves = n.sourceLeaves) :
      (closeWord p.word ++ [n]).flatMap leaves ++ []
        = p.word.flatMap childLeaves ++ n.sourceLeaves := by
    rw [List.append_nil, List.flatMap_append, leaves_closeWord, List.flatMap_singleton, hn]
  have joined (hn : n.childLeaves = n.sourceLeaves) :
      (p.word ++ [n]).flatMap childLeaves = p.word.flatMap childLeaves ++ n.sourceLeaves := by
    rw [List.flatMap_append, List.flatMap_singleton, hn]
  cases n with
  | text content =>
    have cut := leaves_cutText marks content p.word [] p.inWord
    rwa [List.map_nil, List.append_nil] at cut
  | boundary => rw [groupStep, leaves_closeWord]; rfl
  | continuation => exact (List.append_nil _).symm
  | block kind body => exact alone rfl
  | group kind children => exact alone rfl
  | lineBreak label | pageBreak label =>
    simp only [groupStep]
    split
    · exact joined rfl
    · split
      · exact joined rfl
      · exact alone rfl
  | abbreviation _ _ | gap _ _ | marked _ _ | entity _ | compoundJoin => exact joined rfl

theorem leaves_groupFrom (marks : List Char) (p : Pending) (ns : List Node) :
    (groupFrom marks p ns).flatMap leaves
      = p.word.flatMap childLeaves ++ ns.flatMap sourceLeaves := by
  induction ns generalizing p with
  | nil => exact (leaves_closeWord p.word).trans (List.append_nil _).symm
  | cons n ns ih =>
    show ((groupStep marks p n).1 ++ groupFrom marks (groupStep marks p n).2 ns).flatMap leaves = _
    rw [List.flatMap_append, ih, ← List.append_assoc, leaves_groupStep, List.append_assoc,
      List.flatMap_cons]

/-- **Grouping keeps every leaf in its place.** For every sequence of nodes and every
choice of punctuation marks, the words, punctuation marks, breaks and blocks that come
out hold the leaves that went in, each once and in the same order. -/
theorem leaves_groups (marks : List Char) (ns : List Node) :
    (groupFrom marks start ns).flatMap leaves = ns.flatMap sourceLeaves :=
  leaves_groupFrom marks start ns

end Node

end Transcription
