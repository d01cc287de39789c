/-
Transcription.Xml.DocumentType — the type of a document, which declares its
names and attributes.

Its declarations are taken one after the other. Besides names it declares
parameters, whose texts are declarations too and are taken where they are
referred to. What parts outside the document declare is not looked at, so
that from the first reference to a parameter on every name could be
declared.
-/
import Transcription.Xml.ContentModel
import Transcription.Xml.Declarations

namespace Transcription.Xml

/-- What a document type has declared so far: names and attributes,
parameters, whether the document says that it stands alone, how much of the
texts of parameters has been taken, and the notices. -/
structure DocumentType where
  declarations : Declarations
  parameters : Table Meaning
  standalone : Bool
  spent : Nat
  tally : Tally

namespace DocumentType

/-- Nothing declared, with the notices so far. -/
def start (standalone : Bool) (t : Tally) : DocumentType :=
  ⟨.empty, [], standalone, 0, t⟩

/-- Take notice. -/
def noted (notices : List Notice) (d : DocumentType) : DocumentType :=
  { d with tally := notices.foldl Tally.take d.tally }

/-- Let a part outside the document declare names, unless that stands
alone. -/
def opened (d : DocumentType) : DocumentType :=
  { d with declarations := { d.declarations with external := !d.standalone } }

/-! ## 1. Identifiers of parts outside -/

/-- Whether a character may stand in a public identifier. -/
def isPublicChar (c : Char) : Bool :=
  c = ' ' || c = '\n' || c = '\r' || c.isAlphanum || "-'()+,./:=?;!*#@$_%".toList.contains c

/-- What follows a public identifier after its keyword. -/
def afterPublic? (t : Text) : Option Text := do
  let (identifier, rest) ← quotedText? (← afterSpace? t)
  if identifier.all isPublicChar then some rest else none

/-- The place of a part outside at the start of a text, if it is given, and
what follows it. -/
def location? (t : Text) : Option (Option Text × Text) :=
  match Text.after? "SYSTEM" t, Text.after? "PUBLIC" t with
  | some t, _ => do
      let (place, rest) ← quotedText? (← afterSpace? t)
      some (some place, rest)
  | none, some t => do
      let (place, rest) ← quotedText? (← afterSpace? (← afterPublic? t))
      some (some place, rest)
  | none, none => some (none, t)

/-- What follows the identifier of a notation, where a public one is
enough. -/
def afterNotation? (t : Text) : Option Text :=
  match Text.after? "SYSTEM" t, Text.after? "PUBLIC" t with
  | some t, _ => do
      let (_, rest) ← quotedText? (← afterSpace? t)
      some rest
  | none, some t => do
      let t ← afterPublic? t
      some (((afterSpace? t).bind quotedText?).elim t Prod.snd)
  | none, none => none

/-- What follows the place of a part that stands for a name. The place must
not have a fragment. -/
def afterLocation? (t : Text) : Option Text :=
  match location? t with
  | some (some place, rest) => if place.contains '#' then none else some rest
  | _ => none

/-- What follows the end of a declaration. -/
def afterEnd? (t : Text) : Option Text :=
  Text.after? ">" (skipSpace t)

/-! ## 2. Names -/

/-- Whether a text stands for a character that is known by name: it is the
character, unless that begins markup, or a reference to it by number. -/
def isKnownAs (c : Char) : Text → Bool
  | '&' :: '#' :: t =>
      t.length = (if t.head? = some 'x' then 4 else 3) && charReference? t = some (c, [])
  | t => t = [c] && c ≠ '<' && c ≠ '&'

/-- Declare a name. One that is known in every document keeps its
meaning. -/
def declare (name : Text) (m : Meaning) (d : DocumentType) : DocumentType :=
  let fits := (predefined? name).all fun c =>
    match m with
    | .text t => isKnownAs c t
    | _ => false
  if fits then
    { d with declarations := { d.declarations with names := d.declarations.names ++ [(name, m)] } }
  else d.noted [.warning]

/-- Declare a parameter. -/
def declareParameter (name : Text) (m : Meaning) (d : DocumentType) : DocumentType :=
  { d with parameters := d.parameters ++ [(name, m)] }

/-- Refer to a parameter that is not declared. -/
def missing? (d : DocumentType) : Option DocumentType :=
  if d.standalone then none else some (d.opened.noted [.warning])

/-- The text of a name in quotation marks, and what follows it. A reference
to a parameter must not stand in it; one that is not declared cuts it
off. -/
def entityText? (t : Text) (d : DocumentType) : Option (Text × Text × DocumentType) := do
  let (value, rest) ← quotedText? t
  match ← declaredText? value.length value with
  | (value, none) => some (value, rest, d)
  | (value, some parameter) =>
      if (d.parameters.get? parameter).isSome then none
      else
        let d ← d.missing?
        some (value, rest, d)

/-- What a name or a parameter stands for, and what follows it. -/
def meaning? (t : Text) (d : DocumentType) : Option (Meaning × Text × DocumentType) :=
  match t with
  | '\x22' :: _ | '\x27' :: _ => do
      let (value, rest, d) ← entityText? t d
      some (.text value, rest, d)
  | _ => (afterLocation? t).map fun rest => (.outside, rest, d)

/-- What follows the notation of data, if one comes next. -/
def afterData? (t : Text) : Option (Option Text) :=
  match Text.after? "NDATA" (skipSpace t) with
  | none => some none
  | some rest => do
      let _ ← afterSpace? t
      let rest ← afterSpace? rest
      some (some ((fullName? rest).elim rest Prod.snd))

/-- The declaration of a name or a parameter, after its keyword. -/
def entity? (t : Text) (d : DocumentType) : Option (DocumentType × Text) := do
  let t ← afterSpace? t
  let (parameter, t) ← match t with
    | '%' :: t => (afterSpace? t).map fun t => (true, t)
    | t => some (false, t)
  let (name, t) ← fullName? t
  let (m, t, d) ← meaning? (← afterSpace? t) (d.noted (Notice.ofPlainName name))
  if parameter then some (d.declareParameter name m, ← afterEnd? t)
  else
    match m, ← afterData? t with
    | .outside, some rest => some (d.declare name .data, ← afterEnd? rest)
    | m, _ => some (d.declare name m, ← afterEnd? t)

/-! ## 3. Attributes -/

/-- The alternatives of a type up to the closing bracket, when `one` reads
one of them. -/
def alternatives? (one : Text → Option (Text × Text)) : (fuel : Nat) → Text →
    Option (List Text × Text)
  | 0, _ => none
  | fuel + 1, t => do
      let (name, t) ← one (skipSpace t)
      match skipSpace t with
      | ')' :: rest => some ([name], rest)
      | '|' :: rest => (alternatives? one fuel rest).map fun (names, rest) => (name :: names, rest)
      | _ => none

/-- The types of attributes that have a name. -/
def namedTypes : Table AttributeKind :=
  [("CDATA", .plain), ("IDREFS", .words), ("IDREF", .words), ("ID", .identifier),
   ("ENTITY", .words), ("ENTITIES", .words), ("NMTOKENS", .words), ("NMTOKEN", .words)]

/-- What follows the opening bracket of the alternatives of a type, with the
way to read one. -/
def enumeration? (t : Text) : Option ((Text → Option (Text × Text)) × Text) :=
  match Text.after? "NOTATION" t with
  | some rest => ((afterSpace? rest).bind (Text.after? "(")).map fun t => (fullName?, t)
  | none => (Text.after? "(" t).map fun t => (nameToken?, t)

/-- The type of an attribute at the start of a text, with the notices on it:
no alternative should be given twice. -/
def attributeType? (t : Text) : Option (AttributeKind × List Notice × Text) :=
  match namedTypes.findSome? fun (name, kind) => (Text.after? name t).map fun t => (kind, t) with
  | some (kind, rest) => some (kind, [], rest)
  | none => do
      let (one, t) ← enumeration? t
      let (names, rest) ← alternatives? one (t.length + 1) t
      some (.words, (repeated names).map fun _ => .fault, rest)

/-- A value in quotation marks that an attribute has where none is given, and
what follows it. -/
def givenValue? (kind : AttributeKind) (t : Text) (d : DocumentType) :
    Option (Text × Text × DocumentType) := do
  let (value, rest) ← quotedText? t
  let ps ← attributePieces? value
  let ps := if kind = .plain then ps else wordPieces true ps
  let l := Lexicon.ofDeclarations d.declarations 0
  let uses ← (ps.filterMap Piece.name?).foldlM
    (fun u name => u.inValue? l Lexicon.nesting name) (Uses.start d.tally)
  some (d.declarations.keptText ps, rest, { d with tally := uses.tally })

/-- What is said of an attribute that is not given: that it has to be, that
it need not be, or its value then. -/
def default? (kind : AttributeKind) (t : Text) (d : DocumentType) :
    Option (Option Text × Text × DocumentType) :=
  match Text.after? "#REQUIRED" t, Text.after? "#IMPLIED" t, Text.after? "#FIXED" t with
  | some rest, _, _ => some (none, rest, d)
  | none, some rest, _ => some (none, rest, d)
  | none, none, some rest => do
      let (value, rest, d) ← givenValue? kind (← afterSpace? rest) d
      some (some value, rest, d)
  | none, none, none => do
      let (value, rest, d) ← givenValue? kind t d
      some (some value, rest, d)

/-- Declare an attribute. The one that gives its element a name everywhere
should have that kind. -/
def declareAttribute (a : AttributeDeclaration) (d : DocumentType) : DocumentType :=
  let notices := if a.name = ("xml:id" : Text) && a.kind ≠ .identifier then [.fault] else []
  let d := d.noted notices
  if (d.declarations.attribute? a.element a.name).isSome then d
  else
    { d with
      declarations := { d.declarations with attributes := d.declarations.attributes ++ [a] } }

/-- The declarations of the attributes of an element up to their end. -/
def attributes? (element : Text) : (fuel : Nat) → Text → DocumentType →
    Option (DocumentType × Text)
  | 0, _, _ => none
  | fuel + 1, t, d =>
      match t with
      | '>' :: rest => some (d, rest)
      | t => do
          let (name, t) ← fullName? t
          let (kind, notices, t) ← attributeType? (← afterSpace? t)
          let (value, t, d) ← default? kind (← afterSpace? t) (d.noted notices)
          let t ← if Text.startsWith t ">" then some t else afterSpace? t
          attributes? element fuel t (d.declareAttribute ⟨element, name, kind, value⟩)

/-- The declaration of attributes, after its keyword. -/
def attributeList? (t : Text) (d : DocumentType) : Option (DocumentType × Text) := do
  let (element, t) ← fullName? (← afterSpace? t)
  attributes? element (t.length + 1) (skipSpace t) d

/-! ## 4. Other declarations -/

/-- What follows the declaration of an element, after its keyword. -/
def afterElement? (t : Text) : Option Text := do
  let (_, t) ← fullName? (← afterSpace? t)
  afterEnd? (← ContentModel.after? (← afterSpace? t))

/-- The declaration of a notation, after its keyword. -/
def notationDeclaration? (t : Text) (d : DocumentType) : Option (DocumentType × Text) := do
  let (name, t) ← fullName? (← afterSpace? t)
  let rest ← afterEnd? (← afterNotation? (← afterSpace? t))
  some (d.noted (Notice.ofPlainName name), rest)

/-! ## 5. All declarations -/

/-- The ways in which a declaration begins, with what each is. -/
def declarationForms : List (Text × (Text → DocumentType → Option (DocumentType × Text))) :=
  [("<!ENTITY", entity?), ("<!ATTLIST", attributeList?), ("<!NOTATION", notationDeclaration?),
   ("<!ELEMENT", fun t d => (afterElement? t).map fun rest => (d, rest))]

/-- Go on with what stands at the start of a text, when `refer` goes on with
a parameter. -/
def declaration? (refer : Text → DocumentType → Option DocumentType) (t : Text)
    (d : DocumentType) : Option (DocumentType × Text) :=
  match t with
  | '%' :: t => do
      let (name, rest) ← parameter? t
      let d ← refer name d.opened
      some (d, rest)
  | _ =>
      match declarationForms.findSome? fun (form, go) => (Text.after? form t).map (go · d) with
      | some result => result
      | none => (remark? t).map fun (notices, rest) => (d.noted notices, rest)

/-- Go on with the declarations of a text, up to its end or to a closing
bracket. -/
def declarations? (refer : Text → DocumentType → Option DocumentType) : (fuel : Nat) → Text →
    DocumentType → Option (DocumentType × Text)
  | 0, _, _ => none
  | fuel + 1, t, d =>
      let t := skipSpace t
      if t.isEmpty || Text.startsWith t "]" then some (d, t)
      else do
        let (d, rest) ← declaration? refer t d
        declarations? refer fuel rest d

/-- Take the text of a parameter, within the allowance of a document with a
number of characters. -/
def spend? (length : Nat) (t : Text) (d : DocumentType) : Option DocumentType :=
  let spent := d.spent + t.length + Lexicon.useCost
  if spent ≤ (Lexicon.ofDeclarations d.declarations length).allowance then
    some { d with spent := spent }
  else none

/-- Go on with a parameter, where they may be nested to a depth. Its text
holds whole declarations. -/
def refer? (length : Nat) : (depth : Nat) → Text → DocumentType → Option DocumentType
  | depth, name, d =>
      match d.parameters.get? name with
      | none => d.missing?
      | some (.text t) =>
          match depth with
          | 0 => none
          | depth + 1 => do
              let d ← d.spend? length t
              let (d, rest) ← declarations? (refer? length depth) (t.length + 1) t d
              if rest.isEmpty then some d else none
      | some _ => some d

/-- The document type after its keyword, and what follows it. -/
def read? (standalone : Bool) (tally : Tally) (t : Text) : Option (DocumentType × Text) := do
  let (_, rest) ← fullName? (← afterSpace? t)
  let (place, rest) ← location? (skipSpace rest)
  let d := start standalone tally
  let d := if place.isSome then d.opened else d
  match skipSpace rest with
  | '[' :: rest =>
      match ← declarations? (refer? t.length Lexicon.nesting) (rest.length + 1) rest d with
      | (d, ']' :: rest) => some (d, ← afterEnd? rest)
      | _ => none
  | rest => some (d, ← afterEnd? rest)

end DocumentType

end Transcription.Xml
