/-
Transcription.Xml.Notice — what is wrong in a document without stopping its
reading.

A notice is a fault or a mere warning. A document is refused when the last
notice on it is a fault. Of either weight only the first hundred are taken.
-/
import Transcription.Xml.Identifier
import Transcription.Xml.Namespace
import Transcription.Xml.Token
import Transcription.Xml.Uri

namespace Transcription.Xml

/-- The weight of something that is noticed. -/
inductive Notice where
  | warning
  | fault
  deriving DecidableEq, Repr

namespace Notice

/-- The notices on a name that should hold no colon. -/
def ofPlainName (name : Text) : List Notice :=
  if name.contains ':' then [.fault] else []

/-- The notices on the parts of a name. -/
def ofName (name : QName) : List Notice :=
  ofPlainName name.base

/-- The notices on the name of a namespace; the default one should be an
absolute reference. -/
def ofSpace (qualifier space : Text) : List Notice :=
  if space.isEmpty then []
  else if !Uri.isReference space then [.fault]
  else if qualifier.isEmpty && !Uri.isAbsolute space then [.warning]
  else []

/-- The notices on a declaration of a namespace. -/
def ofDeclaration (d : Text × Text) : List Notice :=
  if !isAllowed d then [.fault]
  else if d.1 = ("xml" : Text) then []
  else ofSpace d.1 d.2

/-- The notices on what an attribute says of the space in its element. -/
def ofSpacing (value : Text) : List Notice :=
  if value = ("default" : Text) || value = ("preserve" : Text) then [] else [.warning]

/-- The notices on a name that is given to an element, when `taken` are the
names given before; an empty one is no name. -/
def ofUnique (taken : List Text) (name : Text) : List Notice :=
  if name.isEmpty || taken.contains name then [.fault] else []

/-- The notices on an identifier of an element. -/
def ofIdentifier (taken : List Text) (name : Text) : List Notice :=
  (if isIdentifier name then [] else [.fault]) ++ ofUnique taken name

/-- Whether a name begins with `xml` in small or capital letters. -/
def isMeta : Text → Bool
  | x :: m :: l :: _ => (x = 'x' || x = 'X') && (m = 'm' || m = 'M') && (l = 'l' || l = 'L')
  | _ => false

/-- The notices on an instruction: names that begin with `xml` are reserved
but for two, and names have no qualifier. -/
def ofInstruction (name : Text) : List Notice :=
  if name = ("xml-stylesheet" : Text) || name = ("xml-model" : Text) then []
  else if isMeta name then
    if name.length = 3 then [.fault] else .warning :: ofPlainName name
  else ofPlainName name

end Notice

/-- The notices on a token by itself. -/
def Token.notices : Token → List Notice
  | .instruction name => Notice.ofInstruction name
  | .start name _ _ => Notice.ofName name
  | _ => []

/-- The comment or instruction at the start, its notices, and what follows
it. -/
def remark? (t : Text) : Option (List Notice × Text) :=
  match Text.after? "<!--" t, Text.after? "<?" t with
  | some t, _ => (comment? t).map fun (_, rest) => ([], rest)
  | none, some t => (instruction? t).map fun (token, rest) => (token.notices, rest)
  | none, none => none

/-! ## The tally -/

/-- The notices taken so far: how many of either weight, and the last. -/
structure Tally where
  warnings : Nat
  faults : Nat
  last : Option Notice
  deriving DecidableEq, Repr

namespace Tally

/-- No notice. -/
def none : Tally :=
  ⟨0, 0, .none⟩

/-- How many notices of one weight are taken. -/
def limit : Nat := 100

/-- Take a notice. -/
def take (t : Tally) : Notice → Tally
  | .warning =>
      if t.warnings < limit then { t with warnings := t.warnings + 1, last := some .warning } else t
  | .fault =>
      if t.faults < limit then { t with faults := t.faults + 1, last := some .fault } else t

/-- Whether a document with these notices is refused. -/
def refuses (t : Tally) : Bool :=
  t.last = some .fault

end Tally

end Transcription.Xml
