/-
Transcription.Lexer.Scan — reading up to a closing sign: the bodies of
brackets, braces and labels.

Each reader returns what it read and what follows. The lemmas beside them
say that nothing is lost: what was read, the closing sign and what follows
make up the text again.
-/
import Transcription.Text.Quoted
import Transcription.Unicode.Letter
import Transcription.Unicode.Numeric

namespace Transcription

/-- What is wrong with a construct that has been opened. -/
inductive LexFault where
  /-- A nested bracket is never closed. -/
  | unclosed (close : Char)
  /-- A closing sign never comes. -/
  | missing (close : Char)
  /-- Another character stands where a sign is required. -/
  | mismatch (wanted : Char) (found : Option Char)
  deriving DecidableEq, Repr

/-- The text of a fault. -/
def LexFault.message : LexFault → Text
  | .unclosed close => "Unclosed bracket, expected '" ++ [close, '\x27']
  | .missing close => "Expected '" ++ [close, '\x27']
  | .mismatch wanted found =>
      "Expected '" ++ [wanted] ++ "', found "
        ++ match found with
          | some c => Text.quoted [c]
          | none => "end of input"

namespace Lexer

/-! ## 1. Nesting -/

/-- Whether a character opens a bracket. -/
def isOpener (c : Char) : Bool :=
  c = '{' || c = '[' || c = '<'

/-- Whether a character closes a bracket. -/
def isCloser (c : Char) : Bool :=
  c = '}' || c = ']' || c = '>'

/-- The depth after a character where all brackets count: `close` ends one
level, an opener begins one, and another closer ends a level only while
more than one is open. -/
def bracketDepth (close c : Char) (depth : Nat) : Nat :=
  if c = close then depth - 1
  else if isOpener c then depth + 1
  else if isCloser c ∧ 1 < depth then depth - 1
  else depth

/-- The depth after a character where braces alone count. -/
def braceDepth (c : Char) (depth : Nat) : Nat :=
  if c = '}' then depth - 1
  else if c = '{' then depth + 1
  else depth

/-- The text up to the character at which the depth falls to zero, and what
follows that character. -/
def enclosed? (next : Char → Nat → Nat) : Nat → Text → Option (Text × Text)
  | _, [] => none
  | depth, c :: t =>
      if next c depth = 0 then some ([], t)
      else (enclosed? next (next c depth) t).map fun (body, rest) => (c :: body, rest)

theorem enclosed?_eq {next : Char → Nat → Nat} {body rest : Text} :
    ∀ {depth : Nat} {t : Text}, enclosed? next depth t = some (body, rest) →
      ∃ c, t = body ++ c :: rest := by
  intro depth t
  induction t generalizing depth body with
  | nil => intro h; simp [enclosed?] at h
  | cons c t ih =>
    intro h
    simp only [enclosed?] at h
    split at h
    · simp only [Option.some.injEq, Prod.mk.injEq] at h
      exact ⟨c, by rw [← h.1, ← h.2]; rfl⟩
    · obtain ⟨⟨b, r⟩, hb, he⟩ := Option.map_eq_some_iff.1 h
      simp only [Prod.mk.injEq] at he
      obtain ⟨d, hd⟩ := ih (by rw [hb, ← he.2])
      exact ⟨d, by rw [hd, ← he.1]; rfl⟩

/-! ## 2. Readers -/

/-- The body of a bracket that `close` ends. -/
def bracketed (close : Char) (t : Text) : Except LexFault (Text × Text) :=
  match enclosed? (bracketDepth close) 1 t with
  | some parts => .ok parts
  | none => .error (.unclosed close)

/-- The body of a block. -/
def braced (t : Text) : Except LexFault (Text × Text) :=
  match enclosed? braceDepth 1 t with
  | some parts => .ok parts
  | none => .error (.unclosed '}')

/-- The text up to the first `close`. -/
def closedBy (close : Char) (t : Text) : Except LexFault (Text × Text) :=
  match Text.upTo? close t with
  | some parts => .ok parts
  | none => .error (.missing close)

/-- What follows the required sign. -/
def expect (wanted : Char) : Text → Except LexFault Text
  | [] => .error (.mismatch wanted none)
  | c :: t => if c = wanted then .ok t else .error (.mismatch wanted (some c))

/-- A label in braces, or else the digits at the start. -/
def breakLabel : Text → Except LexFault (Text × Text)
  | '{' :: t => closedBy '}' t
  | t => .ok (Text.span Text.isDigit t)

/-- A label in braces, or else all up to a blank. -/
def pageLabel : Text → Except LexFault (Text × Text)
  | '{' :: t => closedBy '}' t
  | t => .ok (Text.span (fun c => !isBlank c) t)

/-- Whether a character may stand in the name of an entity. -/
def isNameChar (c : Char) : Bool :=
  isLetter c || isNumeric c || c = '_'

/-- The name up to a second colon, after a first one. -/
def entityName? (t : Text) : Option (Text × Text) :=
  match Text.span isNameChar t with
  | ([], _) => none
  | (name, ':' :: rest) => some (name, rest)
  | _ => none

/-! ## 3. What is left is shorter -/

theorem length_of_bracketed {close : Char} {t body rest : Text}
    (h : bracketed close t = .ok (body, rest)) : body.length + rest.length < t.length := by
  unfold bracketed at h
  split at h
  · next parts hp =>
    cases h
    obtain ⟨c, rfl⟩ := enclosed?_eq hp
    simp only [List.length_append, List.length_cons]; omega
  · cases h

theorem length_of_braced {t body rest : Text}
    (h : braced t = .ok (body, rest)) : body.length + rest.length < t.length := by
  unfold braced at h
  split at h
  · next parts hp =>
    cases h
    obtain ⟨c, rfl⟩ := enclosed?_eq hp
    simp only [List.length_append, List.length_cons]; omega
  · cases h

theorem length_of_closedBy {close : Char} {t body rest : Text}
    (h : closedBy close t = .ok (body, rest)) : body.length + rest.length < t.length := by
  unfold closedBy at h
  split at h
  · next parts hp =>
    cases h
    rw [Text.upTo?_eq hp]
    simp only [List.length_append, List.length_cons]; omega
  · cases h

theorem length_of_expect {wanted : Char} {t rest : Text}
    (h : expect wanted t = .ok rest) : rest.length < t.length := by
  cases t with
  | nil => simp [expect] at h
  | cons c t =>
    simp only [expect] at h
    split at h
    · cases h; simp
    · cases h

theorem length_of_span (p : Char → Bool) (t : Text) :
    (Text.span p t).1.length + (Text.span p t).2.length = t.length := by
  rw [← List.length_append, Text.span_append]

theorem length_of_breakLabel {t label rest : Text}
    (h : breakLabel t = .ok (label, rest)) : label.length + rest.length ≤ t.length := by
  unfold breakLabel at h
  split at h
  · have := length_of_closedBy h
    simp only [List.length_cons]; omega
  · have hs := length_of_span Text.isDigit t
    cases h
    exact Nat.le_of_eq hs

theorem length_of_pageLabel {t label rest : Text}
    (h : pageLabel t = .ok (label, rest)) : label.length + rest.length ≤ t.length := by
  unfold pageLabel at h
  split at h
  · have := length_of_closedBy h
    simp only [List.length_cons]; omega
  · have hs := length_of_span (fun c => !isBlank c) t
    cases h
    exact Nat.le_of_eq hs

theorem length_of_entityName? {t name rest : Text}
    (h : entityName? t = some (name, rest)) : name.length + rest.length < t.length := by
  have hs := length_of_span isNameChar t
  unfold entityName? at h
  split at h
  · cases h
  · next n r hp =>
    cases h
    rw [hp] at hs
    simp only [List.length_cons] at hs
    omega
  · cases h

end Lexer

end Transcription
