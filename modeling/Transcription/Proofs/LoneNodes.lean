/-
Transcription.Proofs.LoneNodes — the written form of one node is read as that node
exactly where its strings can be told from the signs around them.

The scanners are described by `Balanced`, which follows a count along the text. Here the
same is said of the text as a whole. A text stays inside its bracket where no beginning
of it leads out, and it leads back to the depth it began at (`StaysInside`); for the body
of a block, where braces alone count, this means that no beginning closes more braces
than it opens and that all of them are closed (`PairedBraces`). With the signs that may
not stand in readings, supplied texts and names these are the conditions on a node
(`Node.Delimited`).

**`lex_write_iff`**: they are sufficient, and nothing else is ever read as a node with
those strings.
-/
import Transcription.Proofs.WrittenGroup

namespace Transcription

namespace Lexer

/-! ## 1. Texts inside brackets -/

/-- How deep a text leads, from inside a bracket that `close` ends. -/
def depthAfter (close : Char) (t : Text) : Nat :=
  t.foldl (fun depth c => bracketDepth close c depth) 1

/-- Text that never leaves its bracket and closes all that it opens. -/
def StaysInside (close : Char) (t : Text) : Prop :=
  (∀ u, u <+: t → depthAfter close u ≠ 0) ∧ depthAfter close t = 1

/-- Text in which no beginning closes more braces than it opens, and all are closed. -/
def PairedBraces (t : Text) : Prop :=
  (∀ u, u <+: t → u.count '}' ≤ u.count '{') ∧ t.count '}' = t.count '{'

section Depth

variable {next : Char → Nat → Nat} {close c : Char} {t : Text} {depth d : Nat}

/-- The beginnings of a text are the empty one and those that go on from its first
character. -/
theorem forall_prefix_cons {P : Text → Prop} :
    (∀ u, u <+: c :: t → P u) ↔ P [] ∧ ∀ u, u <+: t → P (c :: u) := by
  constructor
  · intro h
    exact ⟨h [] List.nil_prefix, fun u hu => h (c :: u) (List.prefix_cons_inj c |>.2 hu)⟩
  · rintro ⟨empty, longer⟩ u hu
    rcases List.prefix_cons_iff.1 hu with rfl | ⟨v, rfl, hv⟩
    · exact empty
    · exact longer v hv

/-- The depth is followed to the end exactly where no beginning leads to zero. -/
theorem depthAfter?_eq_some_iff (hd : 0 < depth) :
    depthAfter? next depth t = some d
      ↔ (∀ u, u <+: t → u.foldl (fun depth c => next c depth) depth ≠ 0)
        ∧ t.foldl (fun depth c => next c depth) depth = d := by
  induction t generalizing depth with
  | nil =>
    have alone : ∀ u : Text, u <+: [] → u.foldl (fun depth c => next c depth) depth ≠ 0 := by
      intro u hu
      rw [List.prefix_nil.1 hu]
      exact Nat.ne_of_gt hd
    simp only [depthAfter?, Option.some.injEq, List.foldl_nil]
    exact ⟨fun h => ⟨alone, h⟩, And.right⟩
  | cons c t ih =>
    rw [forall_prefix_cons, depthAfter?]
    split
    · next hz =>
      -- the first character leads out already
      constructor
      · intro h
        cases h
      · rintro ⟨⟨-, inside⟩, -⟩
        exact absurd hz (inside [] List.nil_prefix)
    · next hz =>
      rw [ih (Nat.pos_of_ne_zero hz)]
      simp only [List.foldl_cons, List.foldl_nil]
      constructor
      · rintro ⟨inside, last⟩
        exact ⟨⟨Nat.ne_of_gt hd, inside⟩, last⟩
      · rintro ⟨⟨-, inside⟩, last⟩
        exact ⟨inside, last⟩

theorem balanced_bracketDepth_iff : Balanced (bracketDepth close) t ↔ StaysInside close t :=
  depthAfter?_eq_some_iff Nat.one_pos

/-- What one character does to the depth is told by the braces in it. -/
theorem braceDepth_add (hd : 0 < depth) :
    braceDepth c depth + [c].count '}' = depth + [c].count '{' := by
  by_cases hc : c = '}'
  · subst hc
    simp [braceDepth]
    omega
  · by_cases ho : c = '{'
    · subst ho
      simp [braceDepth]
    · simp [braceDepth, hc, ho]

/-- Where braces alone count, the depth is the difference of what has been opened and
closed, as long as that is positive. -/
theorem depthAfter?_braceDepth_iff (hd : 0 < depth) :
    depthAfter? braceDepth depth t = some d
      ↔ (∀ u, u <+: t → u.count '}' < depth + u.count '{')
        ∧ d + t.count '}' = depth + t.count '{' := by
  induction t generalizing depth with
  | nil =>
    simp only [depthAfter?, Option.some.injEq, List.prefix_nil, forall_eq, List.count_nil]
    omega
  | cons c t ih =>
    have first := braceDepth_add (c := c) hd
    have more (a : Char) (u : Text) : (c :: u).count a = [c].count a + u.count a := by
      rw [← List.count_append, List.singleton_append]
    rw [forall_prefix_cons, depthAfter?]
    split
    · next hz =>
      constructor
      · intro h
        cases h
      · rintro ⟨⟨-, inside⟩, -⟩
        have closed := inside [] List.nil_prefix
        omega
    · next hz =>
      have shift (u : Text) : u.count '}' < braceDepth c depth + u.count '{'
          ↔ (c :: u).count '}' < depth + (c :: u).count '{' := by
        rw [more '}' u, more '{' u]
        omega
      rw [ih (Nat.pos_of_ne_zero hz), more '}' t, more '{' t]
      simp only [shift, List.count_nil]
      constructor
      · rintro ⟨inside, last⟩
        exact ⟨⟨by omega, inside⟩, by omega⟩
      · rintro ⟨⟨_, inside⟩, last⟩
        exact ⟨inside, by omega⟩

theorem balanced_braceDepth_iff : Balanced braceDepth t ↔ PairedBraces t := by
  rw [Balanced, depthAfter?_braceDepth_iff Nat.one_pos, PairedBraces]
  simp only [Nat.add_comm 1, Nat.lt_succ_iff, Nat.add_right_cancel_iff]

end Depth

end Lexer

namespace Node

open Lexer

/-! ## 2. Nodes that can be told apart -/

/-- The strings of a node that its own signs end can be told from these signs. -/
def Delimited : Node → Prop
  | .abbreviation abbr expansion => StaysInside ']' abbr ∧ StaysInside '}' expansion
  | .gap _ reading => ∀ t ∈ reading, '>' ∉ t
  | .marked .supplied content => '>' ∉ content ∧ content.head? ≠ some '<'
  | .marked _ content => StaysInside '}' content
  | .entity name => name ≠ [] ∧ ∀ c ∈ name, isNameChar c = true
  | .block _ body => PairedBraces body
  | _ => True

theorem admissible_iff_delimited {n : Node} (closed : n.isClosed = true) :
    n.Admissible ↔ n.Delimited := by
  cases n with
  | abbreviation abbr expansion =>
    exact and_congr balanced_bracketDepth_iff balanced_bracketDepth_iff
  | gap quantity reading => exact Iff.rfl
  | marked mark content =>
    cases mark with
    | supplied => exact Iff.rfl
    | deletion | addition | note | unclear => exact balanced_bracketDepth_iff
  | entity name => exact Iff.rfl
  | block kind body => exact balanced_braceDepth_iff
  | boundary => exact Iff.rfl
  | text _ | compoundJoin | lineBreak _ | pageBreak _ | continuation | group _ _ => cases closed

/-- **One node, written and read.** A node that its own signs end is what its written
form is read as, and all of it, if and only if its strings can be told from these
signs. -/
theorem lex_write_iff {n : Node} (closed : n.isClosed = true) :
    lex n.write = .ok [n] ↔ n.Delimited := by
  rw [← admissible_iff_delimited closed]
  constructor
  · intro read
    exact (lexed_of_lex read).admissible n (List.mem_singleton.2 rfl)
  · intro admissible
    exact lex_whole (construct_closed admissible closed false [])

/-- A brace that closes nothing may stand in the short form of an abbreviation; an angle
bracket that nothing closes may not stand in a deletion. -/
theorem lex_write_iff_brackets :
    (Node.abbreviation ['a', '}'] ['b', '{', 'c', '}']).isClosed = true
    ∧ lex (Node.abbreviation ['a', '}'] ['b', '{', 'c', '}']).write
      = .ok [.abbreviation ['a', '}'] ['b', '{', 'c', '}']]
    ∧ (Node.marked .deletion ['a', '<']).isClosed = true
    ∧ lex (Node.marked .deletion ['a', '<']).write ≠ .ok [.marked .deletion ['a', '<']] := by
  have short : StaysInside ']' ['a', '}'] := balanced_bracketDepth_iff.1 rfl
  have long : StaysInside '}' ['b', '{', 'c', '}'] := balanced_bracketDepth_iff.1 rfl
  have unclosed : ¬StaysInside '}' ['a', '<'] := fun h => absurd h.2 (by decide)
  exact ⟨rfl, (lex_write_iff rfl).2 ⟨short, long⟩, rfl, fun read =>
    unclosed ((lex_write_iff rfl).1 read)⟩

end Node

end Transcription
