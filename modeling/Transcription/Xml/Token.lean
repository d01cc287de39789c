/-
Transcription.Xml.Token — the content of a document as a sequence of tags,
characters, references, comments and instructions.

What begins at a place is told from its first characters. Character data
must not hold `]]>`, a comment must not hold `--`, and an instruction must
not be named `xml`.
-/
import Transcription.Xml.Reference

namespace Transcription.Xml

/-- A token of content. -/
inductive Token where
  /-- A start tag; `closed` when the element ends with it. -/
  | start (name : QName) (attrs : List (QName × List Piece)) (closed : Bool)
  | stop (name : QName)
  /-- Characters as they stand. -/
  | chars (t : Text)
  /-- Characters from a reference by number or a known name, or from a
  section of character data. -/
  | data (t : Text)
  | reference (name : Text)
  | comment (t : Text)
  | instruction (name : Text)
  deriving DecidableEq, Repr

/-! ## 1. Tags -/

/-- The quoted text at the start, and what follows it. -/
def quotedText? : Text → Option (Text × Text)
  | '\x22' :: t => Text.upTo? '\x22' t
  | '\x27' :: t => Text.upTo? '\x27' t
  | _ => none

/-- The text after an equals sign with blanks around it. -/
def afterEquals? (t : Text) : Option Text :=
  match skipSpace t with
  | '=' :: t => some (skipSpace t)
  | _ => none

/-- The attributes of a start tag, whether the element ends with it, and
what follows it. -/
def startRest? : (fuel : Nat) → Text → Option (List (QName × List Piece) × Bool × Text)
  | 0, _ => none
  | fuel + 1, t =>
      match skipSpace t with
      | '>' :: rest => some ([], false, rest)
      | '/' :: '>' :: rest => some ([], true, rest)
      | _ => do
          let t ← afterSpace? t
          let (name, t) ← qualifiedName? t
          let (value, t) ← quotedText? (← afterEquals? t)
          let value ← attributePieces? value
          let (attrs, closed, rest) ← startRest? fuel t
          some ((name, value) :: attrs, closed, rest)

/-- A start tag after `<`. -/
def startTag? (t : Text) : Option (Token × Text) := do
  let (name, t) ← qualifiedName? t
  let (attrs, closed, rest) ← startRest? (t.length + 1) t
  some (.start name attrs closed, rest)

/-- An end tag after `</`. -/
def endTag? (t : Text) : Option (Token × Text) := do
  let (name, t) ← qualifiedName? t
  match skipSpace t with
  | '>' :: rest => some (.stop name, rest)
  | _ => none

/-! ## 2. Other markup -/

/-- A comment after `<!--`. -/
def comment? (t : Text) : Option (Token × Text) :=
  match Text.cut? "--" t with
  | some (content, '>' :: rest) => some (.comment content, rest)
  | _ => none

/-- An instruction after `<?`. -/
def instruction? (t : Text) : Option (Token × Text) := do
  let (name, t) ← fullName? t
  if name = ("xml" : Text) then none
  else
    match t with
    | '?' :: '>' :: rest => some (.instruction name, rest)
    | t =>
        let t ← afterSpace? t
        let (_, rest) ← Text.cut? "?>" t
        some (.instruction name, rest)

/-- A section of character data after its opening. -/
def section? (t : Text) : Option (Token × Text) :=
  (Text.cut? "]]>" t).map fun (content, rest) => (.data content, rest)

/-- A reference after `&`. -/
def referenceToken? (t : Text) : Option (Token × Text) :=
  (reference? t).map fun
    | (.char c, rest) => (.data [c], rest)
    | (.named name, rest) =>
        match predefined? name with
        | some c => (.data [c], rest)
        | none => (.reference name, rest)

/-- The characters up to the next markup. -/
def chars? (t : Text) : Option (Token × Text) :=
  let (content, rest) := Text.span (fun c => c ≠ '<' && c ≠ '&') t
  if Text.holds content "]]>" then none else some (.chars content, rest)

/-! ## 3. Dispatch -/

/-- The token at the start of a text that is not empty, and what follows
it. -/
def token? (t : Text) : Option (Token × Text) :=
  match t with
  | '<' :: '!' :: '-' :: '-' :: t => comment? t
  | '<' :: '!' :: t => (Text.after? "[CDATA[" t).bind section?
  | '<' :: '?' :: t => instruction? t
  | '<' :: '/' :: t => endTag? t
  | '<' :: t => startTag? t
  | '&' :: t => referenceToken? t
  | t => chars? t

/-- The tokens of a text, read with fuel. -/
def tokensFrom? : (fuel : Nat) → Text → Option (List Token)
  | 0, t => if t.isEmpty then some [] else none
  | fuel + 1, t =>
      if t.isEmpty then some []
      else do
        let (token, rest) ← token? t
        let tokens ← tokensFrom? fuel rest
        some (token :: tokens)

/-- The tokens of a text. -/
def tokens? (t : Text) : Option (List Token) :=
  tokensFrom? t.length t

end Transcription.Xml
