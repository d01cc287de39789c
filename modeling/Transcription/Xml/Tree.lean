/-
Transcription.Xml.Tree — the tree that the tokens of a document make.

End tags match the start tags of what is open, elements are nested to a
depth, and names of elements are given once. The text of a declared name is
read where it is first used as content, like the content of an element that
is in no scope. It ends no element around it, it gives no names, and the
tree holds the reference only.
-/
import Transcription.Xml.Declarations

namespace Transcription.Xml

/-- How deep elements may be nested. -/
def greatestDepth : Nat := 256

/-! ## 1. Attributes -/

/-- An attribute: its name, its kind, its value, and whether the value holds
no text of declared names. -/
structure Attribute where
  name : QName
  kind : AttributeKind
  value : Text
  isPlain : Bool
  deriving DecidableEq, Repr

namespace Attribute

/-- The attribute with its value put together. -/
def ofPieces (l : Lexicon) (u : Uses) (name : QName) (kind : AttributeKind)
    (value : List Piece) : Attribute :=
  ⟨name, kind, l.valueText u value,
    (value.filterMap Piece.name?).all fun name => !l.declarations.declares name⟩

/-- The name and the value. -/
def pair (a : Attribute) : QName × Text :=
  (a.name, a.value)

/-- Whether the attribute is the one with a name that the qualifier `xml`
reserves. -/
def isMeta (a : Attribute) (base : Text) : Bool :=
  a.name = ⟨"xml", base⟩

/-- The notices on an attribute by its value. -/
def notices (a : Attribute) : List Notice :=
  if a.isMeta "space" then Notice.ofSpacing (if a.isPlain then a.value else [])
  else (declaration? a.pair).elim [] Notice.ofDeclaration

/-- The notices on the name that an attribute gives its element, if it gives
one, when `taken` are the names given before. -/
def naming? (a : Attribute) (taken : List Text) : Option (List Notice) :=
  if !a.isPlain then none
  else if a.isMeta "id" then some (Notice.ofIdentifier taken a.value)
  else if a.kind = .identifier then some (Notice.ofUnique taken a.value)
  else none

end Attribute

/-! ## 2. Building -/

/-- An element that is still open: the name it began with, its tag, the scope
inside it, and what came before it in the element around it, last one
first. -/
structure Open where
  name : QName
  tag : Tag
  scope : Scope
  before : List Node

/-- A tree that is being built: how much is open around it, the open
elements in it, innermost first, the nodes of the innermost one, last one
first, the names of elements, and the uses of declared names. -/
structure Building where
  around : Nat
  opened : List Open
  nodes : List Node
  identifiers : List Text
  uses : Uses

namespace Building

/-- Nothing built, with the notices so far. -/
def start (t : Tally) : Building :=
  ⟨0, [], [], [], .start t⟩

/-- How much is open. -/
def depth (b : Building) : Nat :=
  b.around + b.opened.length

/-- The scope at the place where the tree is built. -/
def scope (b : Building) : Scope :=
  (b.opened.head?.map Open.scope).getD []

/-- Take notice. -/
def noted (b : Building) (notices : List Notice) : Building :=
  { b with uses := b.uses.noted notices }

/-- Add a node. -/
def add (n : Node) (b : Building) : Building :=
  { b with nodes := n :: b.nodes }

/-- Add text, which joins a run of text. -/
def addText (t : Text) (b : Building) : Building :=
  match b.nodes with
  | .text u :: ns => { b with nodes := .text (u ++ t) :: ns }
  | _ => if t.isEmpty then b else b.add (.text t)

/-! ### Elements -/

/-- Put together an attribute of an element, where names may be nested to a
depth. -/
def attribute? (l : Lexicon) (depth : Nat) (element name : QName) (value : List Piece)
    (b : Building) : Option (Attribute × Building) := do
  let kind := l.declarations.kind element name
  let value := if kind = .plain then value else wordPieces true value
  let uses ← (value.filterMap Piece.name?).foldlM (fun u name => u.inValue? l depth name)
    (b.uses.noted (Notice.ofName name))
  let a := Attribute.ofPieces l uses name kind value
  some (a, { b with uses := uses.noted a.notices })

/-- Put together the attributes of an element. -/
def attributes? (l : Lexicon) (depth : Nat) (element : QName) :
    List (QName × List Piece) → Building → Option (List Attribute × Building)
  | [], b => some ([], b)
  | (name, value) :: rest, b => do
      let (a, b) ← b.attribute? l depth element name value
      let (attrs, b) ← attributes? l depth element rest b
      some (a :: attrs, b)

/-- Enter the name that an attribute gives its element. -/
def identify (b : Building) (a : Attribute) : Building :=
  match a.naming? b.identifiers with
  | some notices => { b with identifiers := a.value :: b.identifiers }.noted notices
  | none => b

/-- Begin an element. -/
def begin? (l : Lexicon) (depth : Nat) (name : QName) (attrs : List (QName × List Piece))
    (closed : Bool) (b : Building) : Option Building := do
  let (attrs, b) ← b.attributes? l depth name attrs
  let s ← b.scope.start? (l.declarations.given name) name (attrs.map Attribute.pair)
  let b := b.noted (List.replicate s.faults .fault)
  let b := if b.around = 0 then attrs.foldl identify b else b
  if greatestDepth ≤ b.depth then none
  else if closed then some (b.add (.element s.tag []))
  else some { b with opened := ⟨name, s.tag, s.scope, b.nodes⟩ :: b.opened, nodes := [] }

/-- End the innermost element, if it began with a name. -/
def finish? (name : QName) (b : Building) : Option Building :=
  match b.opened with
  | [] => none
  | o :: opened =>
      if o.name = name then
        some { b with opened := opened, nodes := .element o.tag b.nodes.reverse :: o.before }
      else none

/-! ### References -/

/-- The cost of a declared name in content, and the uses after its text has
been read, unless it has been read before. -/
def reading? (read : Building → Text → Option Building) (name t : Text) (b : Building) :
    Option (Nat × Uses) :=
  match b.uses.readings.get? name with
  | some (_, cost) => some (cost, b.uses)
  | none =>
      if greatestDepth ≤ b.depth then none
      else do
        let inner ← read
          { b with
            around := b.depth + 1
            opened := []
            nodes := []
            uses := { b.uses with spent := t.length } } t
        if inner.opened.isEmpty then
          some (inner.uses.spent, b.uses.closed inner.uses .content name)
        else none

/-- Use a name in content. -/
def useName? (l : Lexicon) (read : Building → Text → Option Building) (name : Text)
    (b : Building) : Option Uses :=
  match l.meaning? name with
  | none => b.uses.missing? l
  | some .data => none
  | some .outside => b.uses.spend? l 0
  | some (.text t) => do
      let (cost, uses) ← b.reading? read name t
      uses.spend? l cost

/-! ### Tokens -/

/-- Go on with a token, where names may be nested to a depth and `read` goes
on with the text of one. Text and references stand in something open. -/
def step? (l : Lexicon) (depth : Nat) (read : Building → Text → Option Building)
    (b : Building) (token : Token) : Option Building :=
  let b := b.noted token.notices
  match token with
  | .start name attrs closed => b.begin? l depth name attrs closed
  | .stop name => b.finish? name
  | .comment t => some (b.add (.comment t))
  | .instruction _ => some (b.add .instruction)
  | .chars t =>
      if b.depth = 0 then if t.all isSpace then some b else none
      else some (b.addText t)
  | .data t => if b.depth = 0 then none else some (b.addText t)
  | .reference name =>
      if b.depth = 0 then none
      else (b.useName? l read name).map fun uses => { b with uses := uses }.add (.reference name)

/-- Go on with the text of a name, where names may be nested to a depth. -/
def content? (l : Lexicon) : (depth : Nat) → Building → Text → Option Building
  | 0, _, _ => none
  | depth + 1, b, t => do
      let ts ← tokens? t
      ts.foldlM (step? l depth (content? l depth)) b

/-- The one element that has been built, if nothing is open and the notices
do not refuse it. -/
def element? (b : Building) : Option Element :=
  if b.opened.isEmpty && !b.uses.tally.refuses then
    match elements b.nodes with
    | [e] => some e
    | _ => none
  else none

/-- The element that the tokens of a document make. -/
def ofTokens? (l : Lexicon) (t : Tally) (ts : List Token) : Option Element :=
  (ts.foldlM (step? l Lexicon.nesting (content? l Lexicon.nesting)) (start t)).bind element?

end Building

end Transcription.Xml
