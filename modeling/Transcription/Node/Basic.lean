/-
Transcription.Node.Basic — the nodes that transcription text consists of.

A transcription is a flat sequence of nodes: runs of text, editorial
marks, breaks, blocks whose body is transcription text in turn, and two
signs that steer the grouping into words. Grouping adds words and
punctuation marks, which hold nodes of their own.
-/
import Transcription.Text.Basic

namespace Transcription

/-- Editorial marks around a stretch of text inside a word. -/
inductive Mark where
  | supplied
  | deletion
  | addition
  | note
  | unclear
  deriving DecidableEq, Repr

/-- Blocks, whose body is transcription text. -/
inductive BlockKind where
  | supplied
  | head
  | norm
  deriving DecidableEq, Repr

/-- What a group of nodes stands for. -/
inductive GroupKind where
  | word
  | punctuation
  deriving DecidableEq, Repr

/-- Breaks of the written surface. -/
inductive BreakKind where
  | line
  | page
  deriving DecidableEq, Repr

/-- A node of a transcription. -/
inductive Node where
  | text (content : Text)
  /-- An abbreviated form with its expansion. -/
  | abbreviation (abbr expansion : Text)
  /-- Lost characters, how many of them, and an editor's reading. -/
  | gap (quantity : Option Nat) (reading : Option Text)
  | marked (mark : Mark) (content : Text)
  /-- A named character. -/
  | entity (name : Text)
  /-- The joint between the parts of one word. -/
  | compoundJoin
  | lineBreak (label : Option Text)
  | pageBreak (label : Text)
  | block (kind : BlockKind) (body : Text)
  /-- The word goes on across the next break. -/
  | continuation
  /-- The word ends here. -/
  | boundary
  | group (kind : GroupKind) (children : List Node)
  deriving Repr, Inhabited

namespace Node

/-- Whether a node is a line or page break. -/
def isBreak : Node → Bool
  | .lineBreak _ | .pageBreak _ => true
  | _ => false

/-- Whether a node may stand inside a word: text, marks, named characters
and joints. -/
def isInline : Node → Bool
  | .text _ | .abbreviation _ _ | .gap _ _ | .marked _ _ | .entity _ | .compoundJoin => true
  | _ => false

mutual

/-- A measure of how much there is to read inside a node: the bodies of
blocks and the children of groups. -/
def weight : Node → Nat
  | .block _ body => 2 * body.length + 2
  | .group _ children => weights children + 1
  | _ => 0

/-- The sum of the weights. -/
def weights : List Node → Nat
  | [] => 0
  | n :: ns => weight n + weights ns

end

theorem weight_le_weights {n : Node} : ∀ {ns : List Node}, n ∈ ns → n.weight ≤ weights ns
  | m :: ns, h => by
    rcases List.mem_cons.1 h with rfl | h
    · exact Nat.le_add_right _ _
    · exact Nat.le_trans (weight_le_weights h) (Nat.le_add_left _ _)

theorem weights_eq_zero {ns : List Node} (h : ∀ n ∈ ns, n.weight = 0) : weights ns = 0 := by
  induction ns with
  | nil => rfl
  | cons n ns ih =>
    obtain ⟨first, rest⟩ := List.forall_mem_cons.1 h
    rw [weights, first, ih rest]

end Node

end Transcription
