/-
Transcription.Xml.Namespace — which namespaces the qualifiers of names stand
for, and under which qualifier an attribute is written.

A declaration holds for its element and all inside it, unless a declaration
further in hides it. An attribute in a namespace is written with a
qualifier that is in force for that namespace; of several the one declared
furthest out, and of those the one declared last.
-/
import Transcription.Xml.Name

namespace Transcription.Xml

/-- The declarations in force: those of inner elements first, those of one
element in their order. The empty qualifier stands for the default. -/
abbrev Scope := List (Text × Text)

/-- The namespace of the qualifier `xml`. -/
def xmlSpace : Text := "http://www.w3.org/XML/1998/namespace"

/-- The namespace of the qualifier `xmlns`, which nothing may be bound to. -/
def declarationSpace : Text := "http://www.w3.org/2000/xmlns/"

/-- The namespace of a qualifier. -/
def Scope.space? (scope : Scope) (qualifier : Text) : Option Text :=
  if qualifier = ("xml" : Text) then some xmlSpace
  else if qualifier.isEmpty then some ((List.lookup qualifier scope).getD [])
  else List.lookup qualifier scope

/-- The declarations whose qualifiers are not hidden, neither by those given
nor by one before them. -/
def Scope.visible (hidden : List Text) : Scope → Scope
  | [] => []
  | (q, space) :: rest =>
      if hidden.contains q then Scope.visible hidden rest
      else (q, space) :: Scope.visible (q :: hidden) rest

/-- The name that an attribute is written with. -/
def Scope.written (scope : Scope) (space base : Text) : Text :=
  if space.isEmpty then base
  else if space = xmlSpace then "xml:" ++ base
  else
    match ((scope.visible []).filter fun e => e.2 = space && !e.1.isEmpty).getLast? with
    | some (q, _) => q ++ ':' :: base
    | none => base

/-- The declaration that an attribute makes, if it makes one. -/
def declaration? (attr : QName × Text) : Option (Text × Text) :=
  if attr.1.qualifier = ("xmlns" : Text) then some (attr.1.base, attr.2)
  else if attr.1.qualifier.isEmpty ∧ attr.1.base = ("xmlns" : Text) then some ([], attr.2)
  else none

/-- Whether a declaration is allowed: the two reserved qualifiers and
namespaces go with nothing else, and only the default can be taken back. -/
def isAllowed (d : Text × Text) : Bool :=
  if d.1 = ("xml" : Text) then d.2 = xmlSpace
  else if d.1 = ("xmlns" : Text) then false
  else d.2 ≠ xmlSpace && d.2 ≠ declarationSpace && (d.1.isEmpty || !d.2.isEmpty)

/-- The declarations among some attributes that come into force. The one of
the qualifier `xml` always is in force. -/
def declarations (attrs : List (QName × Text)) : Scope :=
  (attrs.filterMap declaration?).filter fun d => d.1 ≠ ("xml" : Text) && isAllowed d

/-- The members of a list that come again later in it. -/
def repeated {α : Type} [DecidableEq α] : List α → List α
  | [] => []
  | a :: rest => if rest.contains a then a :: repeated rest else repeated rest

/-- An attribute with its qualifier resolved: its namespace, its name there,
and what it is written as. Without a namespace for its qualifier it has none,
and the qualifier is part of its name. -/
structure Resolved where
  space : Text
  base : Text
  written : Text
  value : Text

/-- The value of an attribute among others: of several that are one after
resolution all have that of the first. -/
def Resolved.valueIn (attrs : List Resolved) (a : Resolved) : Text :=
  ((attrs.find? fun b => b.space = a.space && b.base = a.base).map Resolved.value).getD a.value

/-- Resolve an attribute in a scope. -/
def Scope.attribute (scope : Scope) (attr : QName × Text) : Resolved :=
  let (name, value) := attr
  if name.qualifier.isEmpty then ⟨[], name.base, name.base, value⟩
  else
    match scope.space? name.qualifier with
    | some space => ⟨space, name.base, scope.written space name.base, value⟩
    | none => ⟨[], name.base, name.write, value⟩

/-- The name of an element and its namespace. Without a namespace for its
qualifier it has none, and the qualifier is part of its name. -/
def Scope.element (scope : Scope) (name : QName) : QName × Text :=
  match scope.space? name.qualifier with
  | some space => (name, space)
  | none => (⟨[], name.write⟩, [])

/-- The qualifiers that have no namespace in a scope. -/
def Scope.unknown (scope : Scope) (names : List QName) : List Text :=
  (names.map QName.qualifier).filter fun q => (scope.space? q).isNone

/-- A start tag with its names resolved, the scope inside the element, and
how many of its names are at fault: those with a qualifier that has no
namespace, and those of attributes that are one only after resolution. -/
structure Start where
  tag : Tag
  scope : Scope
  faults : Nat

/-- Resolve the names of a start tag, when `given` are attributes that the
element has where they are not among its own. They may declare namespaces
too. No two declarations of the element may be of one qualifier, and no two
attributes of one name. -/
def Scope.start? (scope : Scope) (given : List (QName × Text)) (name : QName)
    (attrs : List (QName × Text)) : Option Start :=
  let declared := declarations attrs
  let added := (given.filterMap declaration?).filter fun d =>
    d.1 ≠ ("xml" : Text) && !(declared.map Prod.fst).contains d.1
  let inner := declared ++ added ++ scope
  let others := attrs.filter fun a => (declaration? a).isNone
  let absent := given.filter fun a =>
    (declaration? a).isNone && !(others.map Prod.fst).contains a.1
  let resolved := others.map inner.attribute
  if (repeated (declared.map Prod.fst)).isEmpty && (repeated (others.map Prod.fst)).isEmpty then
    let (name', space) := inner.element name
    some
      { tag :=
          { name := name'
            space := space
            attrs := resolved.map fun a => (a.written, a.valueIn resolved)
            defaults := absent.map fun a => (a.1.write, a.2) }
        scope := inner
        faults := (inner.unknown (name :: (others ++ absent).map Prod.fst)).length
          + (repeated ((others ++ absent).map fun a =>
              ((inner.attribute a).space, (inner.attribute a).base))).length }
  else none

end Transcription.Xml
