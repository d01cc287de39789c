/-
Transcription.Proofs.BreakLabels — which labels a break keeps when it is written and read.

The writer puts a label in braces or leaves it bare, and the reader takes a label in braces up
to the first closing one, and a bare one up to where it cannot go on: digits for a line, all but
blanks for a page. A bare label therefore has to be told from what follows it, while one in
braces stands before anything. What no label in braces can have is a closing brace: the reader
stops at the first one, so that the label comes back shorter (`construct_braced`), and no text
behind it can make up for that.

**`label_survives_iff`**: outside a word a label comes back, before a blank or the end, if and
only if it holds no closing brace or is written bare; inside a word, where it is never written
bare, it comes back before any text if and only if it holds no closing brace.
-/
import Transcription.Proofs.WrittenGroup

namespace Transcription

open Lexer

namespace BreakKind

/-! ## 1. Breaks and their labels -/

/-- A break of a kind. -/
def node : BreakKind → Option Text → Node
  | .line, label => .lineBreak label
  | .page, label => .pageBreak (label.getD [])

/-- What a break is read as: inside a word, the sign that the word goes on comes before it. -/
def nodes (kind : BreakKind) (label : Option Text) : (inWord : Bool) → List Node
  | true => [.continuation, kind.node label]
  | false => [kind.node label]

/-- What stands before the label of a break. -/
def opening (kind : BreakKind) (inWord : Bool) : Text :=
  if inWord then '~' :: kind.sign else kind.sign

/-- The reader finds the end of a label without braces around it: digits for a line, and for a
page anything without blanks that does not begin with an opening brace. -/
def Bare : BreakKind → Text → Prop
  | .line, label => ∀ c ∈ label, Text.isDigit c = true
  | .page, label => (∀ c ∈ label, isBlank c = false) ∧ label.head? ≠ some '{'

section Written

variable {kind : BreakKind} {label : Text}

theorem bareLabel_iff : kind.bareLabel label = true ↔ kind.Bare label := by
  cases kind with
  | line => exact List.all_eq_true
  | page =>
    simp only [bareLabel, Bare, Bool.not_eq_true', Bool.or_eq_false_iff, beq_eq_false_iff_ne,
      List.any_eq_false, Bool.not_eq_true]
    exact And.comm

theorem write_of_bare (bare : kind.Bare label) :
    kind.write (some label) false = kind.sign ++ label :=
  @write_bare (some label) kind (bareLabel_iff.2 bare)

theorem write_of_not_bare (braced : ¬kind.Bare label) :
    kind.write (some label) false = kind.opening false ++ '{' :: (label ++ ['}']) :=
  @write_braced (some label) kind (Bool.eq_false_iff.2 fun h => braced (bareLabel_iff.1 h))

theorem write_of_inWord (given : label ≠ []) :
    kind.write (some label) true = kind.opening true ++ '{' :: (label ++ ['}']) := by
  have filled : ¬label.isEmpty = true := fun empty => given (List.isEmpty_iff.1 empty)
  rw [write_inWord, bracedLabel, Option.getD_some, if_neg filled]
  rfl

/-- A label is written bare where it can be read so. -/
theorem write_eq_iff : kind.write (some label) false = kind.sign ++ label ↔ kind.Bare label := by
  refine ⟨fun written => Classical.byContradiction fun braced => ?_, write_of_bare⟩
  rw [write_of_not_bare braced] at written
  have braces : '{' :: (label ++ ['}']) = label := List.append_cancel_left written
  have longer := congrArg List.length braces
  rw [List.length_cons, List.length_append] at longer
  omega

end Written

end BreakKind

namespace Lexer

/-! ## 2. Labels in braces -/

section Braces

variable {kind : BreakKind} {inWord : Bool} {label rest : Text} {ns : List Node}

/-- A label in braces is read up to its closing brace, whatever follows. -/
theorem construct_braced (kind : BreakKind) (inWord : Bool) (h : '}' ∉ label) (rest : Text) :
    construct (kind.opening inWord ++ '{' :: (label ++ '}' :: rest))
      = .ok (some (kind.nodes (labelOf label) inWord, rest)) := by
  have apart : ('{' :: (label ++ '}' :: rest)).head? ≠ some '/' := by simp
  cases kind with
  | line =>
    cases inWord with
    | false =>
      show construct ('/' :: '/' :: '{' :: (label ++ '}' :: rest)) = _
      rw [construct_line apart, lineBreakRest, breakLabel_braced h]
      rfl
    | true =>
      show construct ('~' :: '/' :: '/' :: '{' :: (label ++ '}' :: rest)) = _
      rw [construct_joined_line apart, lineBreakRest, breakLabel_braced h]
      rfl
  | page =>
    cases inWord with
    | false =>
      show some <$> pageBreakRest pageLabel [] ('{' :: (label ++ '}' :: rest)) = _
      rw [pageBreakRest, pageLabel_braced h, BreakKind.nodes, BreakKind.node, getD_labelOf]
      rfl
    | true =>
      show some <$> pageBreakRest breakLabel [.continuation] ('{' :: (label ++ '}' :: rest)) = _
      rw [pageBreakRest, breakLabel_braced h, BreakKind.nodes, BreakKind.node, getD_labelOf]
      rfl

/-- The label can be seen from what a break is read as. -/
theorem label_of_nodes {first second : Option Text} {ms : List Node}
    (h : kind.nodes first inWord ++ ms = kind.nodes second inWord ++ ns) :
    first.getD [] = second.getD [] := by
  have same : kind.node first = kind.node second := by
    cases inWord with
    | false => exact (List.cons.inj h).1
    | true => exact (List.cons.inj (List.cons.inj h).2).1
  cases kind with
  | line => rw [Node.lineBreak.inj same]
  | page => exact Node.pageBreak.inj same

/-- A label in braces comes back if and only if it does not close them itself. -/
theorem lex_braced_iff (kind : BreakKind) (inWord : Bool) (given : label ≠ [])
    (read : lex rest = .ok ns) :
    lex (kind.opening inWord ++ '{' :: (label ++ '}' :: rest))
        = .ok (kind.nodes (some label) inWord ++ ns)
      ↔ '}' ∉ label := by
  constructor
  · intro whole closes
    -- the reader stops at the first closing brace
    obtain ⟨first, behind, rfl, fresh⟩ := List.eq_append_cons_of_mem closes
    rw [List.append_assoc, List.cons_append] at whole
    obtain ⟨ms, -, parts⟩ := exists_lex_of_construct (construct_braced kind inWord fresh _) whole
    have shorter : first ++ '}' :: behind = (labelOf first).getD [] := label_of_nodes parts
    have length := congrArg List.length shorter
    rw [getD_labelOf, List.length_append, List.length_cons] at length
    omega
  · intro fresh
    have label_some : labelOf label = some label := if_neg (by simpa using given)
    have found := construct_braced kind inWord fresh rest
    rw [label_some] at found
    exact lex_of_construct found read

end Braces

/-! ## 3. Bare labels -/

section Bare

variable {kind : BreakKind} {label rest : Text} {ns : List Node}

theorem admissible_of_bare (given : label ≠ []) (bare : kind.Bare label) :
    (kind.node (some label)).Admissible := by
  cases kind with
  | line =>
    rintro _ ⟨⟩
    refine ⟨given, fun closes => ?_⟩
    exact absurd (bare '}' closes) (by decide)
  | page => exact .inr (BreakKind.bareLabel_iff.2 bare)

/-- A bare label comes back before a blank or the end, also one that holds a closing brace. -/
theorem lex_bare (given : label ≠ []) (bare : kind.Bare label)
    (blank : ∀ c ∈ rest.head?, isBlank c = true) (read : lex rest = .ok ns) :
    lex (kind.write (some label) false ++ rest) = .ok (kind.node (some label) :: ns) := by
  have written : (kind.node (some label)).write = kind.write (some label) false := by
    cases kind <;> rfl
  have isBreak : (kind.node (some label)).isBreak = true := by
    cases kind <;> rfl
  have found := construct_break isBreak (admissible_of_bare given bare) blank
  rw [written] at found
  exact lex_of_construct found read

end Bare

/-! ## 4. Labels that come back -/

/-- **Labels survive exactly when they can.** For breaks of both kinds, every label that is not
empty and every text behind the break that can be read. Outside a word, where that text is empty
or begins with a blank, the written break is read as the break with that label and then the
nodes of the text, if and only if the label holds no closing brace or is one that is written
bare. Inside a word it is read as the sign that the word goes on, the break with that label and
then the nodes of the text, if and only if the label holds no closing brace. The labels that are
written bare are digits for a line, and for a page those that hold no blank and begin with no
opening brace. -/
theorem label_survives_iff (kind : BreakKind) {label rest : Text} {ns : List Node}
    (given : label ≠ []) (read : lex rest = .ok ns) :
    ((∀ c ∈ rest.head?, isBlank c = true) →
        (lex (kind.write (some label) false ++ rest) = .ok (kind.node (some label) :: ns)
          ↔ '}' ∉ label ∨ kind.Bare label))
      ∧ (lex (kind.write (some label) true ++ rest)
            = .ok (.continuation :: kind.node (some label) :: ns)
          ↔ '}' ∉ label)
      ∧ (kind.write (some label) false = kind.sign ++ label ↔ kind.Bare label) := by
  have braces (inWord : Bool) : kind.opening inWord ++ '{' :: (label ++ ['}']) ++ rest
      = kind.opening inWord ++ '{' :: (label ++ '}' :: rest) := by simp
  refine ⟨fun blank => ?_, ?_, BreakKind.write_eq_iff⟩
  · by_cases bare : kind.Bare label
    · exact iff_of_true (lex_bare given bare blank read) (.inr bare)
    · rw [BreakKind.write_of_not_bare bare, braces, or_iff_left bare]
      exact lex_braced_iff kind false given read
  · rw [BreakKind.write_of_inWord given, braces]
    exact lex_braced_iff kind true given read

/-- A page label that is kept for being written bare, and is cut inside a word. -/
theorem label_survives_iff_closing_brace :
    ['2', '}'] ≠ []
    ∧ lex [' ', 'b'] = .ok [.text [' ', 'b']]
    ∧ (∀ c ∈ ([' ', 'b'] : Text).head?, isBlank c = true)
    ∧ lex ['/', '/', '/', '2', '}', ' ', 'b'] = .ok [.pageBreak ['2', '}'], .text [' ', 'b']]
    ∧ lex ['~', '/', '/', '/', '{', '2', '}', '}', ' ', 'b']
      ≠ .ok [.continuation, .pageBreak ['2', '}'], .text [' ', 'b']] := by
  have given : ['2', '}'] ≠ [] := List.cons_ne_nil _ _
  have read : lex [' ', 'b'] = .ok [.text [' ', 'b']] := by
    have blank : construct [' ', 'b'] = .ok none := rfl
    have letter : construct ['b'] = .ok none := rfl
    rw [lex_char blank, lex_char letter, lex_nil]
    rfl
  have blank : ∀ c ∈ ([' ', 'b'] : Text).head?, isBlank c = true := by
    rintro _ ⟨⟩
    decide
  have bare : BreakKind.page.Bare ['2', '}'] := ⟨Text.forall_of_check (by decide), by decide⟩
  obtain ⟨outside, inside, -⟩ := label_survives_iff .page given read
  exact ⟨given, read, blank, (outside blank).2 (.inr bare), fun kept => inside.1 kept (by decide)⟩

end Lexer

end Transcription
