/-
Transcription.Xml.Basic — the tree of a tagged document and its markup.

Names are written with the qualifier they have in the document, attributes
in their order, and declarations of namespaces not at all, so that a piece
of markup fits back into the place it comes from. References to named
characters stay as they are; instructions keep their place and are not
written.
-/
import Transcription.Markup

namespace Transcription.Xml

/-- A name with its qualifier, which is empty when there is none. -/
structure QName where
  qualifier : Text
  base : Text
  deriving DecidableEq, Repr

/-- The name as it is written. -/
def QName.write (n : QName) : Text :=
  if n.qualifier.isEmpty then n.base else n.qualifier ++ ':' :: n.base

/-- The start of an element: its name, the namespace that its name lies in,
its attributes under their written names, and the values of attributes that
it has by its name where they are not among its own. -/
structure Tag where
  name : QName
  space : Text
  attrs : Table Text
  defaults : Table Text
  deriving DecidableEq, Repr

/-- A node of a document. -/
inductive Node where
  | text (content : Text)
  | comment (content : Text)
  | reference (name : Text)
  | instruction
  | element (tag : Tag) (children : List Node)
  deriving Repr, Inhabited

/-- An element with its content. -/
structure Element where
  tag : Tag
  children : List Node
  deriving Repr

namespace Tag

/-- The name of an element without its qualifier. -/
def localName (tag : Tag) : Text :=
  tag.name.base

/-- The attributes, each name once. -/
def values (tag : Tag) : Table Text :=
  .ofEntries tag.attrs

/-- The value of an attribute, be it its own or by its name. -/
def value? (tag : Tag) (name : Text) : Option Text :=
  (tag.attrs.get? name).or (tag.defaults.get? name)

/-- The opening tag. -/
def opening (tag : Tag) : Text :=
  '<' :: tag.name.write ++ Markup.attributes tag.attrs ++ ">"

/-- The closing tag. -/
def closing (tag : Tag) : Text :=
  "</" ++ tag.name.write ++ ">"

/-- The tag of an element without content. -/
def empty (tag : Tag) : Text :=
  '<' :: tag.name.write ++ Markup.attributes tag.attrs ++ "/>"

end Tag

mutual

/-- The markup of a node. -/
def Node.write : Node → Text
  | .text content => Markup.escapeText content
  | .comment content => "<!--" ++ content ++ "-->"
  | .reference name => Markup.reference name
  | .instruction => []
  | .element tag [] => tag.empty
  | .element tag (child :: children) =>
      tag.opening ++ child.write ++ writeAll children ++ tag.closing

/-- The markup of nodes one after the other. -/
def writeAll : List Node → Text
  | [] => []
  | n :: ns => n.write ++ writeAll ns

end

theorem Node.write_text (content : Text) :
    (Node.text content).write = Markup.escapeText content := rfl

theorem Node.write_empty (tag : Tag) : (Node.element tag []).write = tag.empty := rfl

theorem Node.write_element {tag : Tag} {children : List Node} (h : children ≠ []) :
    (Node.element tag children).write = tag.opening ++ writeAll children ++ tag.closing := by
  cases children with
  | nil => exact absurd rfl h
  | cons child children =>
    show tag.opening ++ child.write ++ writeAll children ++ tag.closing
      = tag.opening ++ (child.write ++ writeAll children) ++ tag.closing
    rw [← List.append_assoc tag.opening]

/-- The markup of an element. -/
def Element.write (e : Element) : Text :=
  Node.write (.element e.tag e.children)

/-! ## Looking into elements -/

/-- The elements among some nodes. -/
def elements (ns : List Node) : List Element :=
  ns.filterMap fun
    | .element tag children => some ⟨tag, children⟩
    | _ => none

/-- Whether there are elements among some nodes. -/
def hasElements (ns : List Node) : Bool :=
  !(elements ns).isEmpty

mutual

/-- All elements of a node in document order. -/
def Node.descendants : Node → List Element
  | .element tag children => ⟨tag, children⟩ :: descendantsAll children
  | _ => []

/-- All elements of some nodes in document order. -/
def descendantsAll : List Node → List Element
  | [] => []
  | n :: ns => n.descendants ++ descendantsAll ns

end

/-- The first element with a name in document order. -/
def findFirst? (name : Text) (ns : List Node) : Option Element :=
  (descendantsAll ns).find? fun e => e.tag.localName = name

mutual

/-- The text of a node: comments and instructions have none, and a
reference is written out. -/
def Node.plainText : Node → Text
  | .text content => content
  | .reference name => Markup.reference name
  | .element _ children => plainTextAll children
  | _ => []

/-- The text of nodes one after the other. -/
def plainTextAll : List Node → Text
  | [] => []
  | n :: ns => n.plainText ++ plainTextAll ns

end

mutual

/-- How deep elements are nested in a node. -/
def Node.depth : Node → Nat
  | .element _ children => depthAll children + 1
  | _ => 0

/-- How deep elements are nested in some nodes. -/
def depthAll : List Node → Nat
  | [] => 0
  | n :: ns => max n.depth (depthAll ns)

end

end Transcription.Xml
