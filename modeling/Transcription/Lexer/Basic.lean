/-
Transcription.Lexer.Basic — transcription text as a flat sequence of nodes.

At each place the construct that begins there is read; characters that
begin none join into runs of text. Reading fails as a whole at the first
construct that is opened and not closed, and the fault is placed at the
start of that construct.
-/
import Transcription.Lexer.Construct
import Transcription.Fault

namespace Transcription

/-- Why and where text cannot be read: the fault, and the text from the
start of the faulty construct on. -/
structure LexError where
  fault : LexFault
  rest : Text
  deriving DecidableEq, Repr

/-- The fault with its place in the source. -/
def LexError.located (e : LexError) (source : Text) (file : Option Text) : Located :=
  let position := Position.ofRest source e.rest
  { message := e.fault.message
    line := some position.line
    column := some position.column
    file := file }

namespace Lexer

/-- A character before a sequence of nodes: it joins the run of text that
the sequence begins with. -/
def consChar (c : Char) : List Node → List Node
  | .text content :: ns => .text (c :: content) :: ns
  | ns => .text [c] :: ns

/-- The nodes of a text. -/
def lex (t : Text) : Except LexError (List Node) :=
  match t with
  | [] => .ok []
  | c :: t =>
      match _hc : construct (c :: t) with
      | .error fault => .error ⟨fault, c :: t⟩
      | .ok none => consChar c <$> lex t
      | .ok (some (ns, rest)) => (ns ++ ·) <$> lex rest
termination_by t.length
decreasing_by
  · simp
  · exact (within_construct _hc).1

/-! ## 1. One step at a time -/

theorem lex_nil : lex [] = .ok [] := by
  rw [lex]

theorem lex_char {c : Char} {t : Text} (h : construct (c :: t) = .ok none) :
    lex (c :: t) = consChar c <$> lex t := by
  rw [lex]
  split
  · next hc => rw [h] at hc; cases hc
  · rfl
  · next hc => rw [h] at hc; cases hc

theorem lex_construct {c : Char} {t rest : Text} {ns : List Node}
    (h : construct (c :: t) = .ok (some (ns, rest))) :
    lex (c :: t) = (ns ++ ·) <$> lex rest := by
  rw [lex]
  split
  · next hc => rw [h] at hc; cases hc
  · next hc => rw [h] at hc; cases hc
  · next hc => rw [h] at hc; cases hc; rfl

theorem lex_fault {c : Char} {t : Text} {fault : LexFault}
    (h : construct (c :: t) = .error fault) : lex (c :: t) = .error ⟨fault, c :: t⟩ := by
  rw [lex]
  split
  · next hc => rw [h] at hc; cases hc; rfl
  · next hc => rw [h] at hc; cases hc
  · next hc => rw [h] at hc; cases hc

/-! ## 2. Blocks have shorter bodies -/

theorem weight_consChar {c : Char} {ns : List Node} {n : Nat}
    (h : ∀ node ∈ ns, node.weight ≤ n) : ∀ node ∈ consChar c ns, node.weight ≤ n := by
  intro node hn
  unfold consChar at hn
  split at hn
  · rcases List.mem_cons.1 hn with rfl | hn
    · exact Nat.zero_le _
    · exact h node (List.mem_cons_of_mem _ hn)
  · rcases List.mem_cons.1 hn with rfl | hn
    · exact Nat.zero_le _
    · exact h node hn

/-- Every node of a text has less to read inside it than a block with that
text as its body. -/
theorem weight_of_lex {t : Text} {ns : List Node} (h : lex t = .ok ns) :
    ∀ node ∈ ns, node.weight ≤ 2 * t.length := by
  induction hn : t.length using Nat.strongRecOn generalizing t ns with
  | ind n ih =>
    cases t with
    | nil => rw [lex_nil] at h; cases h; simp
    | cons c t =>
      cases hc : construct (c :: t) with
      | error fault => rw [lex_fault hc] at h; cases h
      | ok found =>
        cases found with
        | none =>
          rw [lex_char hc] at h
          obtain ⟨ms, hm, rfl⟩ := exists_of_map h
          have := ih t.length (by rw [← hn]; simp) hm rfl
          refine weight_consChar fun node hmem => ?_
          have := this node hmem
          simp only [List.length_cons] at hn
          omega
        | some parts =>
          obtain ⟨ks, rest⟩ := parts
          rw [lex_construct hc] at h
          obtain ⟨ms, hm, rfl⟩ := exists_of_map h
          have hw := within_construct hc
          intro node hmem
          rcases List.mem_append.1 hmem with hmem | hmem
          · rw [← hn]; exact hw.2 node hmem
          · have := ih rest.length (by rw [← hn]; exact hw.1) hm rfl node hmem
            have := hw.1
            omega

end Lexer

end Transcription
