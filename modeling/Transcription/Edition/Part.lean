/-
Transcription.Edition.Part — nodes with the bodies of their blocks read.

The body of a block is transcription text. Reading it once, down to the
innermost block, turns a sequence of nodes into a tree that the markup is
written from by recursion. A body that cannot be read keeps its source.
-/
import Transcription.Lexer.Basic
import Transcription.Node.Grouping

namespace Transcription

/-- A node whose blocks are read. -/
inductive Part where
  | leaf (n : Node)
  | group (kind : GroupKind) (children : List Part)
  | block (kind : BlockKind) (body : List Part)
  /-- A block whose body cannot be read. -/
  | unread (kind : BlockKind) (source : Text)
  deriving Repr, Inhabited

namespace Part

theorem weight_of_body {body : Text} {ns : List Node} {n : Node}
    (h : Lexer.lex body = .ok ns) (hn : n ∈ Node.grouped ns) :
    n.weight < 2 * body.length + 2 := by
  rcases Node.mem_grouped hn with hw | hm
  · omega
  · have := Lexer.weight_of_lex h n hm
    omega

/-- A node with its blocks read. -/
def ofNode (n : Node) : Part :=
  match n with
  | .block kind body =>
      match _h : Lexer.lex body with
      | .error _ => .unread kind body
      | .ok ns => .block kind ((Node.grouped ns).attach.map fun m => ofNode m.1)
  | .group kind children => .group kind (children.map fun m => ofNode m)
  | n => .leaf n
termination_by n.weight
decreasing_by
  · exact weight_of_body _h m.2
  · next hm => exact Nat.lt_succ_of_le (Node.weight_le_weights hm)

/-- A sequence of nodes with their blocks read. -/
def ofNodes (ns : List Node) : List Part :=
  ns.map ofNode

/-- The parts of a text, grouped, or nothing when it cannot be read. -/
def ofText? (t : Text) : Option (List Part) :=
  match Lexer.lex t with
  | .ok ns => some (ofNodes (Node.grouped ns))
  | .error _ => none

/-- The nodes among the children of a group that are no groups or blocks. -/
def leaves (ps : List Part) : List Node :=
  ps.filterMap fun
    | .leaf n => some n
    | _ => none

/-! ## One step at a time -/

/-- A node with nothing to read inside is a leaf. -/
theorem ofNode_leaf {n : Node} (h : n.weight = 0) : ofNode n = .leaf n := by
  cases n with
  | group _ _ | block _ _ => cases h
  | _ => simp [ofNode]

theorem ofNode_group (kind : GroupKind) (children : List Node) :
    ofNode (.group kind children) = .group kind (ofNodes children) := by
  rw [ofNode, ofNodes]

theorem ofNode_block {kind : BlockKind} {body : Text} {ns : List Node}
    (h : Lexer.lex body = .ok ns) :
    ofNode (.block kind body) = .block kind (ofNodes (Node.grouped ns)) := by
  rw [ofNode]
  split
  · next he => rw [h] at he; cases he
  · next ms he =>
    rw [h] at he
    cases he
    rw [ofNodes, List.attach_map_val]

theorem ofNode_unread {kind : BlockKind} {body : Text} {e : LexError}
    (h : Lexer.lex body = .error e) : ofNode (.block kind body) = .unread kind body := by
  rw [ofNode]
  split
  · rfl
  · next he => rw [h] at he; cases he

end Part

end Transcription
