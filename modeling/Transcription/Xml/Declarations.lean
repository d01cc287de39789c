/-
Transcription.Xml.Declarations — what a document declares, and what becomes
of its names where they are used.

The text of a name may use other names, to a depth. It must be fit for the
place where the name is used: as content it is read like the content of an
element, and inside a value it must hold no tags. It is looked at once for
each kind of place, and what it amounts to is kept. A name that is not
declared may be used only when a part outside the document, which is never
read, could declare it; inside a value it then counts for nothing. So that a
short document cannot stand for an endless one, all uses together have an
allowance.
-/
import Transcription.Xml.Notice

namespace Transcription.Xml

/-- What a declared name stands for. -/
inductive Meaning where
  /-- A text of the document. -/
  | text (t : Text)
  /-- A part outside the document. -/
  | outside
  /-- Data in a notation, which no text can hold. -/
  | data
  deriving DecidableEq, Repr

/-- What the values of an attribute are. -/
inductive AttributeKind where
  | plain
  /-- Words with single spaces between them. -/
  | words
  /-- The name of an element, which no other element has. -/
  | identifier
  deriving DecidableEq, Repr

/-- What is declared of an attribute by the name of its element and its own:
its kind, and the value that it has where none is given, with the names that
are used in it. -/
structure AttributeDeclaration where
  element : Text
  name : Text
  kind : AttributeKind
  value : Option Text
  deriving DecidableEq, Repr

/-- What a document declares: its names, whether parts outside it may declare
more, and attributes. Of several declarations of one thing the first
counts. -/
structure Declarations where
  names : Table Meaning
  external : Bool
  attributes : List AttributeDeclaration
  deriving DecidableEq, Repr

namespace Declarations

/-- Nothing declared. -/
def empty : Declarations :=
  ⟨[], false, []⟩

/-- Whether a name is declared. -/
def declares (d : Declarations) (name : Text) : Bool :=
  (d.names.get? name).isSome

/-- What is declared of an attribute. -/
def attribute? (d : Declarations) (element name : Text) : Option AttributeDeclaration :=
  d.attributes.find? fun a => a.element = element && a.name = name

/-- The kind of an attribute. -/
def kind (d : Declarations) (element name : QName) : AttributeKind :=
  ((d.attribute? element.write name.write).map AttributeDeclaration.kind).getD .plain

/-- The attributes that an element has where they are not given. -/
def given (d : Declarations) (element : QName) : List (QName × Text) :=
  d.attributes.filterMap fun a =>
    if a.element = element.write then a.value.map fun v => (QName.ofText a.name, v) else none

end Declarations

/-! ## 1. Uses -/

/-- A kind of place where names are used. -/
inductive Place where
  | value
  | content
  deriving DecidableEq, Repr

/-- What a document declares, and the most that all uses of its names may
cost. -/
structure Lexicon where
  declarations : Declarations
  allowance : Nat

namespace Lexicon

/-- How deep the texts of names may use other names. -/
def nesting : Nat := 19

/-- What each use of a declared name costs besides its text. -/
def useCost : Nat := 20

/-- The lexicon of a document with a number of characters. -/
def ofDeclarations (d : Declarations) (length : Nat) : Lexicon :=
  ⟨d, max 1000000 (5 * length)⟩

/-- What a name stands for. -/
def meaning? (l : Lexicon) (name : Text) : Option Meaning :=
  l.declarations.names.get? name

end Lexicon

/-- The uses of names so far: their cost, the costs of the names that are fit
for values, where each name was first read, with its cost, and the notices. -/
structure Uses where
  spent : Nat
  inValues : Table Nat
  readings : Table (Place × Nat)
  tally : Tally

namespace Uses

/-- No use, with the notices so far. -/
def start (t : Tally) : Uses :=
  ⟨0, [], [], t⟩

/-- Take notice. -/
def noted (u : Uses) (notices : List Notice) : Uses :=
  { u with tally := notices.foldl Tally.take u.tally }

/-- Use a declared name that has a cost. -/
def spend? (l : Lexicon) (cost : Nat) (u : Uses) : Option Uses :=
  let spent := u.spent + cost + Lexicon.useCost
  if spent ≤ l.allowance then some { u with spent := spent } else none

/-- Use a name that is not declared. -/
def missing? (l : Lexicon) (u : Uses) : Option Uses :=
  if l.declarations.external then some (u.noted [.warning]) else none

/-- The uses with those inside the text of a name gone through: `inner` are
the uses after it, all of which belong to the name. -/
def closed (u inner : Uses) (place : Place) (name : Text) : Uses :=
  { inner with
    spent := u.spent
    inValues := match place with
      | .value => (name, inner.spent) :: inner.inValues
      | .content => inner.inValues
    readings :=
      if (inner.readings.get? name).isSome then inner.readings
      else (name, place, inner.spent) :: inner.readings }

/-- Use a name inside a value. -/
def inValue? (l : Lexicon) (depth : Nat) (name : Text) (u : Uses) : Option Uses :=
  match l.meaning? name with
  | none => u.missing? l
  | some (.text t) =>
      match u.inValues.get? name with
      | some cost => u.spend? l cost
      | none =>
          match depth with
          | 0 => none
          | depth + 1 => do
              let ps ← namePieces? t
              let inner ← (ps.filterMap Piece.name?).foldlM
                (fun u name => inValue? l depth name u) { u with spent := t.length }
              (u.closed inner .value name).spend? l inner.spent
  | some _ => none

end Uses

/-! ## 2. Values -/

/-- A value with its names as they are used in it. So that no name can come
about, `&` stands by its number. -/
def Declarations.keptText (d : Declarations) (ps : List Piece) : Text :=
  ps.flatMap fun
    | .char c => if c = '&' then "&#38;" else [c]
    | .named name => if d.declares name then Markup.reference name else []

/-- The text of a name inside a value, up to a depth of nesting. Read as
content first, it has its line ends as line feeds. -/
def Lexicon.textIn (l : Lexicon) (u : Uses) : (depth : Nat) → Text → Text
  | 0, _ => []
  | depth + 1, name =>
      match l.meaning? name with
      | some (.text t) =>
          let t := match u.readings.get? name with
            | some (.content, _) => normalizeLines t
            | _ => t
          ((namePieces? t).getD []).flatMap fun
            | .char c => [c]
            | .named name => l.textIn u depth name
      | _ => []

/-- The text of a value. -/
def Lexicon.valueText (l : Lexicon) (u : Uses) (ps : List Piece) : Text :=
  ps.flatMap fun
    | .char c => [c]
    | .named name => l.textIn u l.declarations.names.length name

end Transcription.Xml
