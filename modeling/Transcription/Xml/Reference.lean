/-
Transcription.Xml.Reference — references to characters by number and by
name, and the texts in which they stand: values of attributes, and the
texts of the names that a document declares.

Five names are known in every document.
-/
import Transcription.Xml.Name

namespace Transcription.Xml

/-- What a reference stands for. -/
inductive Reference where
  | char (c : Char)
  | named (name : Text)
  deriving DecidableEq, Repr

/-- The value of a digit below the base. -/
def digitValue? (base : Nat) (c : Char) : Option Nat :=
  let value :=
    if '0' ≤ c ∧ c ≤ '9' then c.toNat - '0'.toNat
    else if 'a' ≤ c ∧ c ≤ 'f' then c.toNat - 'a'.toNat + 10
    else if 'A' ≤ c ∧ c ≤ 'F' then c.toNat - 'A'.toNat + 10
    else base
  if value < base then some value else none

/-- The number that a nonempty numeral stands for. -/
def numeralValue? (base : Nat) (t : Text) : Option Nat :=
  if t.isEmpty then none
  else t.foldlM (fun n c => (digitValue? base c).map (n * base + ·)) 0

/-- The character with a number, if a document may hold it. -/
def charOfPoint? (n : Nat) : Option Char :=
  if isDocumentPoint n then some (Char.ofNat n) else none

/-- The character by number that a reference after `&#` stands for. -/
def charReference? (t : Text) : Option (Char × Text) := do
  let (digits, rest) ← Text.upTo? ';' t
  let n ← match digits with
    | 'x' :: digits => numeralValue? 16 digits
    | digits => numeralValue? 10 digits
  some (← charOfPoint? n, rest)

/-- The reference after `&`. -/
def reference? : Text → Option (Reference × Text)
  | '#' :: t => (charReference? t).map fun (c, rest) => (.char c, rest)
  | t =>
      match fullName? t with
      | some (name, ';' :: rest) => some (.named name, rest)
      | _ => none

/-- The name of the parameter in a reference after `%`. -/
def parameter? (t : Text) : Option (Text × Text) :=
  match fullName? t with
  | some (name, ';' :: rest) => some (name, rest)
  | _ => none

/-- The characters that are known by name in every document. -/
def predefined? (name : Text) : Option Char :=
  if name = ("lt" : Text) then some '<'
  else if name = ("gt" : Text) then some '>'
  else if name = ("amp" : Text) then some '&'
  else if name = ("quot" : Text) then some '\x22'
  else if name = ("apos" : Text) then some '\x27'
  else none

/-! ## 1. Values -/

/-- A part of a value: a character, or a name whose text belongs in its
place. -/
inductive Piece where
  | char (c : Char)
  | named (name : Text)
  deriving DecidableEq, Repr

/-- The name that a part of a value refers to. -/
def Piece.name? : Piece → Option Text
  | .char _ => none
  | .named name => some name

/-- The parts of a value, with `blank` put for each blank that stands in it
and is not referred to by number. -/
def pieces? (blank : Char → Char) : (fuel : Nat) → Text → Option (List Piece)
  | 0, t => if t.isEmpty then some [] else none
  | fuel + 1, t =>
      match t with
      | [] => some []
      | '&' :: t => do
          let (r, rest) ← reference? t
          let first := match r with
            | .char c => Piece.char c
            | .named name => (predefined? name).elim (.named name) .char
          let rest ← pieces? blank fuel rest
          some (first :: rest)
      | c :: t =>
          if c = '<' then none
          else (pieces? blank fuel t).map (.char (if isSpace c then blank c else c) :: ·)

/-- The parts of the value of an attribute, where each blank is a space. -/
def attributePieces? (t : Text) : Option (List Piece) :=
  pieces? (fun _ => ' ') t.length t

/-- The parts of a value that is a list of words: one space between words,
and none around them. `after` tells whether a space came last. -/
def wordPieces (after : Bool) : List Piece → List Piece
  | [] => []
  | .char ' ' :: ps =>
      let rest := wordPieces true ps
      if after || rest.isEmpty then rest else .char ' ' :: rest
  | p :: ps => p :: wordPieces false ps

/-- The parts of the text of a name inside a value, where blanks stay. -/
def namePieces? (t : Text) : Option (List Piece) :=
  pieces? id t.length t

/-! ## 2. Declared names -/

/-- The text with all line ends as line feeds. -/
def normalizeLines : Text → Text
  | '\r' :: '\n' :: t => '\n' :: normalizeLines t
  | '\r' :: t => '\n' :: normalizeLines t
  | c :: t => c :: normalizeLines t
  | [] => []

/-- The text of a declared name, and the parameter that cuts it off, if there
is one: characters by number are put in, and names stay. -/
def declaredText? : (fuel : Nat) → Text → Option (Text × Option Text)
  | 0, t => if t.isEmpty then some ([], none) else none
  | fuel + 1, t =>
      match t with
      | [] => some ([], none)
      | '&' :: t => do
          let (r, rest) ← reference? t
          let (rest, cut) ← declaredText? fuel rest
          match r with
          | .char c => some (c :: rest, cut)
          | .named name => some (Markup.reference name ++ rest, cut)
      | '%' :: t => (parameter? t).map fun (name, _) => ([], some name)
      | c :: t => (declaredText? fuel t).map fun (rest, cut) => (c :: rest, cut)

end Transcription.Xml
