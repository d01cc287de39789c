/-
Transcription.Validation.Schema — schemas for simple documents, and the
check of a document against one.

A schema says for an element which elements follow one another in it and
how often, and whether it holds text. It is written in either of two
languages, of which the part is read that says just this. Elements lie in no
namespace and have no attributes; blanks between elements do not count.
-/
import Transcription.Validation.Result
import Transcription.Xml.Reader

namespace Transcription.Validation

/-- The languages that schemas are written in. -/
inductive SchemaKind where
  | relaxng
  | xsd
  deriving DecidableEq, Repr

/-- What a schema says of an element: its name, whether it holds text, the
elements in it, and how often it comes; without `most` it may come any
number of times. -/
inductive Rule where
  | mk (name : Text) (hasText : Bool) (content : List Rule) (least : Nat) (most : Option Nat)
  deriving Repr, Inhabited

namespace Rule

/-- The name of the element. -/
def name : Rule → Text
  | .mk name _ _ _ _ => name

/-- The rule with another number of times. -/
def times (least : Nat) (most : Option Nat) : Rule → Rule
  | .mk name hasText content _ _ => .mk name hasText content least most

/-! ## 1. Checking -/

/-- Whether an element is the one that a rule speaks of. -/
def speaksOf (r : Rule) (e : Xml.Element) : Bool :=
  e.tag.space.isEmpty && e.tag.localName = r.name && e.tag.attrs.isEmpty

/-- Whether some nodes hold text other than blanks. -/
def holdsText (ns : List Xml.Node) : Bool :=
  ns.any fun
    | .text t => !t.all Xml.isSpace
    | _ => false

/-- Whether some nodes hold references, which no rule speaks of. -/
def holdsReference (ns : List Xml.Node) : Bool :=
  ns.any fun
    | .reference _ => true
    | _ => false

mutual

/-- Whether an element with some content is as a rule says. -/
def accepts (e : Xml.Element) : Rule → Bool
  | .mk name hasText content least most =>
      speaksOf (.mk name hasText content least most) e
        && (hasText || !holdsText e.children) && !holdsReference e.children
        && acceptsAll (Xml.elements e.children) content

/-- Whether some elements are as rules say one after the other; each rule
takes all elements that it speaks of. -/
def acceptsAll (es : List Xml.Element) : List Rule → Bool
  | [] => es.isEmpty
  | .mk name hasText content least most :: rules =>
      let mine := es.takeWhile (speaksOf (.mk name hasText content least most))
      let rest := es.dropWhile (speaksOf (.mk name hasText content least most))
      decide (least ≤ mine.length) && (most.map fun m => decide (mine.length ≤ m)).getD true
        && mine.all (fun e => accepts e (.mk name hasText content least most))
        && acceptsAll rest rules

end

/-! ## 2. The first language -/

/-- The namespace of the first language. -/
def relaxngSpace : Text := "http://relaxng.org/ns/structure/1.0"

/-- How often what stands in an element of the first language comes. -/
def occurrence? (name : Text) : Option (Nat × Option Nat) :=
  if name = ("zeroOrMore" : Text) then some (0, none)
  else if name = ("oneOrMore" : Text) then some (1, none)
  else if name = ("optional" : Text) then some (0, some 1)
  else none

/-- What an element of a schema adds to the element around it: text, rules,
or nothing; none where it cannot be read. -/
abbrev Part := Option (Bool × List Rule)

/-- Two parts after one another. -/
def Part.both (a b : Part) : Part := do
  let (text, rules) ← a
  let (moreText, more) ← b
  some (text || moreText, rules ++ more)

mutual

/-- What a node of a schema in the first language says. -/
def ofRelaxng? : Xml.Node → Part
  | .element tag children =>
      if tag.space ≠ relaxngSpace then none
      else if tag.localName = ("element" : Text) then do
        let name ← tag.attrs.get? "name"
        let (hasText, content) ← ofRelaxngAll? children
        some (false, [.mk name hasText content 1 (some 1)])
      else if tag.localName = ("text" : Text) then some (true, [])
      else if tag.localName = ("empty" : Text) then some (false, [])
      else do
        let (least, most) ← occurrence? tag.localName
        match ← ofRelaxngAll? children with
        | (false, [rule]) => some (false, [rule.times least most])
        | _ => none
  | .text t => if t.all Xml.isSpace then some (false, []) else none
  | _ => some (false, [])

/-- What nodes of a schema in the first language say together. -/
def ofRelaxngAll? : List Xml.Node → Part
  | [] => some (false, [])
  | n :: ns => Part.both (ofRelaxng? n) (ofRelaxngAll? ns)

end

/-! ## 3. The second language -/

/-- The namespace of the second language. -/
def xsdSpace : Text := "http://www.w3.org/2001/XMLSchema"

/-- A number of times, one unless it is given. -/
def leastOf? (attrs : Table Text) : Option Nat :=
  match attrs.get? "minOccurs" with
  | none => some 1
  | some t => Text.toNat? t

/-- A greatest number of times, one unless it is given. -/
def mostOf? (attrs : Table Text) : Option (Option Nat) :=
  match attrs.get? "maxOccurs" with
  | none => some (some 1)
  | some t => if t = ("unbounded" : Text) then some none else (Text.toNat? t).map some

mutual

/-- What a node of a schema in the second language says. -/
def ofXsd? : Xml.Node → Part
  | .element tag children =>
      if tag.space ≠ xsdSpace then none
      else if tag.localName = ("element" : Text) then do
        let name ← tag.attrs.get? "name"
        let hasText := (tag.attrs.get? "type").isSome
        let (_, content) ← ofXsdAll? children
        some (false, [.mk name hasText content (← leastOf? tag.attrs) (← mostOf? tag.attrs)])
      else if tag.localName = ("complexType" : Text) ∨ tag.localName = ("sequence" : Text) then
        ofXsdAll? children
      else none
  | .text t => if t.all Xml.isSpace then some (false, []) else none
  | _ => some (false, [])

/-- What nodes of a schema in the second language say together. -/
def ofXsdAll? : List Xml.Node → Part
  | [] => some (false, [])
  | n :: ns => Part.both (ofXsd? n) (ofXsdAll? ns)

end

/-- The rule for the outermost element that a schema gives. -/
def ofElement? (kind : SchemaKind) (root : Xml.Element) : Option Rule :=
  let part := match kind with
    | .relaxng =>
        if root.tag.localName = ("element" : Text) then
          ofRelaxng? (.element root.tag root.children)
        else none
    | .xsd =>
        if root.tag.space = xsdSpace && root.tag.localName = ("schema" : Text) then
          ofXsdAll? root.children
        else none
  match part with
  | some (_, [rule]) => some rule
  | _ => none

/-- The rule that the text of a schema gives. -/
def ofText? (kind : SchemaKind) (t : Text) : Option Rule :=
  (Xml.read? t).bind (ofElement? kind)

/-! ## 4. Documents -/

/-- A finding without a place. -/
def finding (message : Text) : Issue :=
  ⟨message, none, none, false⟩

/-- What is wrong with a document. -/
def issues (r : Rule) (xml : Text) : List Issue :=
  match Xml.read? xml with
  | none => [finding "The document is not well-formed."]
  | some root => if accepts root r then [] else [finding "The document does not fit the schema."]

end Rule

end Transcription.Validation
