/-
Transcription.Patch.Alignment — the changes that lead from one sequence of
tokens to another.

What both sequences begin and end with is kept. The middle is aligned along
a longest common subsequence, found from the end; where an insertion and a
deletion are equally good, the insertion comes last. A deletion with an
insertion right after it is one change. When both middles are longer than a
limit, the whole of one is deleted and the whole of the other inserted.
-/
import Transcription.Patch.Basic

namespace Transcription.Patch

/-! ## 1. Common subsequences -/

/-- From the lengths for `a` and every end of `b`, the lengths for `x :: a`:
the first entry belongs to all of `b`, the last one to its empty end. -/
def nextRow (x : Text) : List Text → List Nat → List Nat
  | [], _ => [0]
  | y :: b, row =>
      let rest := nextRow x b row.tail
      let here := if x = y then row.tail.headD 0 + 1 else max (row.headD 0) (rest.headD 0)
      here :: rest

/-- For every end of `a`, the lengths of the longest common subsequences
with the ends of `b`. -/
def table : List Token → List Text → List (List Nat)
  | [], b => [List.replicate (b.length + 1) 0]
  | x :: a, b =>
      let rows := table a b
      nextRow x.content b (rows.headD []) :: rows

/-- The changes from the reversed `a` to the reversed `b`, last one first,
with the table of the two. -/
def walk : List Token → List Text → List (List Nat) → List Patch
  | [], [], _ => []
  | [], y :: b, rows => .insert y :: walk [] b rows
  | x :: a, [], rows => .delete x.id :: walk a [] rows
  | x :: a, y :: b, rows =>
      let without := (rows.tail.headD []).headD 0
      let inserted := (rows.headD []).tail.headD 0
      if x.content = y then .keep x.id :: walk a b (rows.tail.map List.tail)
      else if without ≤ inserted then .insert y :: walk (x :: a) b (rows.map List.tail)
      else .delete x.id :: walk a (y :: b) rows.tail
termination_by a b => a.length + b.length

/-- Keep, insert and delete operations along a longest common subsequence;
beyond the limit on both sides everything is replaced. -/
def align (source : List Token) (edited : List Text) (limit : Int) : List Patch :=
  if limit < source.length ∧ limit < edited.length then
    source.map (fun t => .delete t.id) ++ edited.map .insert
  else
    let a := source.reverse
    let b := edited.reverse
    (walk a b (table a b)).reverse

/-! ## 2. Changes -/

/-- Merge each deletion with an insertion right after it. -/
def merge : List Patch → List Patch
  | .delete id :: .insert dsl :: ops => .modify id dsl :: merge ops
  | op :: ops => op :: merge ops
  | [] => []

/-- What two sequences begin with in common, and what is left of both. -/
def commonStart : List Token → List Text → List Token × List Token × List Text
  | x :: a, y :: b =>
      if x.content = y then
        let (common, rest) := commonStart a b
        (x :: common, rest)
      else ([], x :: a, y :: b)
  | a, b => ([], a, b)

/-- What two sequences end with in common, and what is left of both. -/
def commonEnd (a : List Token) (b : List Text) : List Token × List Token × List Text :=
  let (common, a, b) := commonStart a.reverse b.reverse
  (common.reverse, a.reverse, b.reverse)

/-- The operations that keep tokens. -/
def keeps (ts : List Token) : List Patch :=
  ts.map fun t => .keep t.id

/-- The changes from the tokens of a source to the edited ones. -/
def diff (source : List Token) (edited : List Text) (limit : Int) : List Patch :=
  let (start, source, edited) := commonStart source edited
  let (last, source, edited) := commonEnd source edited
  merge (keeps start ++ align source edited limit ++ keeps last)

/-- The limit that holds unless another one is given. -/
def defaultLimit : Int := 1000

/-- The changes that edited text makes to a list of segments. Text that
differs from their projection in blanks around it only changes nothing. -/
def compute (ss : List Segment) (edited : Text) (limit : Int) : List Patch :=
  let source := Token.ofSegments ss
  if Text.trim (Segment.toText ss) = Text.trim edited then keeps source
  else diff source (Token.contents edited) limit

end Transcription.Patch
