/-
Transcription.Edition.Document — the markup of a transcription.

A document is written in one pass over its parts. Three counters run along:
the index of the next word, the number of line breaks so far and whether a
page has opened a paragraph. The bodies of blocks are fragments with
counters of their own, and no word in a fragment takes an index.
-/
import Transcription.Edition.CharacterRange
import Transcription.Edition.Part
import Transcription.Edition.Reading
import Transcription.Edition.WordAttributes
import Transcription.Settings

namespace Transcription

namespace Edition

/-! ## 1. Counters -/

/-- The counters of a document. -/
structure Progress where
  wordIndex : Nat
  lineNumber : Nat
  inPage : Bool
  deriving DecidableEq, Repr

/-- The counters at the start. -/
def Progress.start : Progress :=
  ⟨0, 0, false⟩

/-- Markup written so far along with the counters. -/
abbrev Writing := StateM Progress Text

/-! ## 2. Breaks and inline nodes -/

/-- The name of the element of a group. -/
def groupTag : GroupKind → Text
  | .word => "w"
  | .punctuation => "pc"

/-- A break with a label. -/
def labelledBreak (name label : Text) : Text :=
  '<' :: name ++ Markup.attr "n" label ++ "/>\n"

/-- A break in a fragment, where no lines are counted. -/
def fragmentBreak : Node → Text
  | .pageBreak label => labelledBreak "pb" label
  | .lineBreak (some label) => labelledBreak "lb" label
  | .lineBreak none => "<lb/>\n"
  | _ => []

/-- A line break in a document: counted, and numbered on demand when it
has no label. -/
def lineBreak (s : Settings) (label : Option Text) : Writing := do
  let progress ← get
  let number := progress.lineNumber + 1
  set { progress with lineNumber := number }
  match label with
  | some label => return labelledBreak "lb" label
  | none =>
      return if s.autoLineNumbers then labelledBreak "lb" (Text.ofNat number)
        else fragmentBreak (.lineBreak none)

/-- A page break in a document, with the paragraphs around pages on
demand. -/
def pageBreak (s : Settings) (label : Text) : Writing := do
  if s.wrapPages then
    let progress ← get
    set { progress with inPage := true }
    let closing : Text := if progress.inPage then "</p>\n" else []
    return closing ++ labelledBreak "pb" label ++ "<p>\n"
  else return labelledBreak "pb" label

/-- The markup of an inline node where only one level is written. -/
def inline (a : Apparatus) : Node → Text
  | .text content => Markup.escape content
  | .abbreviation abbr expansion =>
      Markup.wrap "choice" (Markup.element "abbr" abbr ++ Markup.element "expan" expansion)
  | .gap quantity reading =>
      Markup.gap quantity ++ (reading.map (Markup.element "supplied")).getD []
  | .marked mark content => Markup.element mark.tag content
  | .entity name =>
      match a.registry.resolve name with
      | some char => Markup.escape char
      | none => Markup.reference name
  | .compoundJoin => [' ']
  | _ => []

/-- A node that is no group and no block. -/
def leaf (s : Settings) (a : Apparatus) : Node → Writing
  | .lineBreak label => lineBreak s label
  | .pageBreak label => pageBreak s label
  | n => pure (inline a n)

/-! ## 3. Words -/

/-- The readings of a group. -/
def readings (a : Apparatus) (children : List Part) : Readings :=
  let ns := Part.leaves children
  ⟨a.facsimile ns, a.diplomatic ns, a.normalized ns⟩

/-- A group with its readings, without an index. -/
def plainLevels (a : Apparatus) (kind : GroupKind) (children : List Part) (attrs : Text) :
    Text :=
  let r := readings a children
  if r.isEmpty then [] else r.write (groupTag kind) attrs []

/-- A word with its readings. It takes an index even when there is nothing
to show. -/
def wordLevels (a : Apparatus) (children : List Part) : Writing := do
  let progress ← get
  let index := progress.wordIndex
  set { progress with wordIndex := index + 1 }
  let r := readings a children
  let r := match a.storedNormalized index with
    | some stored => { r with normalized := Markup.escape stored }
    | none => r
  if r.isEmpty then return []
  else
    let r := { r with
      facsimile := CharacterRange.inject r.facsimile (CharacterRange.ofWord a index) }
    return r.write (groupTag .word) (Markup.attributes (a.wordAttributes index)) (a.notes index)

/-- A word with its content on one level. It takes an index only when it
has content. -/
def wordSingle (a : Apparatus) (content : Text) : Writing := do
  if content.isEmpty then return []
  else
    let progress ← get
    let index := progress.wordIndex
    set { progress with wordIndex := index + 1 }
    return "<w" ++ Markup.attributes (a.wordAttributes index) ++ '>' :: content ++ a.notes index
      ++ "</w>\n"

/-- A group with its content on one level, without an index. -/
def plainSingle (kind : GroupKind) (content attrs : Text) : Text :=
  if content.isEmpty then []
  else '<' :: groupTag kind ++ attrs ++ '>' :: content ++ "</" ++ groupTag kind ++ ">\n"

/-! ## 4. Blocks -/

/-- The element of a block around its content. A block of normalized
content has none. -/
def blockElement : BlockKind → Text → Text
  | .supplied, content => Markup.wrap "supplied" content
  | .head, content => Markup.wrap "head" content
  | .norm, content => content

/-- A block whose body cannot be read: its source in a comment, and nothing
for normalized content where only one level is written. -/
def unreadBlock (s : Settings) (kind : BlockKind) (source : Text) : Text :=
  if kind = .norm ∧ !s.multiLevel then []
  else blockElement kind (Markup.remark "parse error" source)

mutual

/-- Content that exists at the normalized level only. -/
def normalizedPart (a : Apparatus) : Part → Text
  | .leaf n => fragmentBreak n ++ a.normalizedOf n
  | .group kind children =>
      let normalized := a.normalized (Part.leaves children)
      if normalized.isEmpty then []
      else Readings.write ⟨[], [], normalized⟩ (groupTag kind) [] []
  | .block .head _ => []
  | .block kind body => blockElement kind (normalizedParts a body)
  | .unread .head _ => []
  | .unread kind source => blockElement kind (Markup.remark "parse error" source)

/-- A sequence of such content. -/
def normalizedParts (a : Apparatus) : List Part → Text
  | [] => []
  | p :: ps => normalizedPart a p ++ normalizedParts a ps

end

/-! ## 5. Documents and fragments -/

mutual

/-- A part of a document. -/
def part (s : Settings) (a : Apparatus) : Part → Writing
  | .leaf n => leaf s a n
  | .group .word children => do
      if s.multiLevel then wordLevels a children
      else wordSingle a (← parts s a children)
  | .group .punctuation children => do
      if s.multiLevel then return plainLevels a .punctuation children []
      else return plainSingle .punctuation (← parts s a children) []
  | .block .norm body => pure (if s.multiLevel then normalizedParts a body else [])
  | .block kind body => pure (blockElement kind (fragments s a body .start).1)
  | .unread kind source => pure (unreadBlock s kind source)

/-- A sequence of parts of a document. -/
def parts (s : Settings) (a : Apparatus) : List Part → Writing
  | [] => pure []
  | p :: ps => do
      let first ← part s a p
      let rest ← parts s a ps
      return first ++ rest

/-- A part of a fragment: groups take no index and breaks are not
counted. -/
def fragment (s : Settings) (a : Apparatus) : Part → Writing
  | .leaf n => if n.isBreak then pure (fragmentBreak n) else leaf s a n
  | .group kind children => do
      if s.multiLevel then return plainLevels a kind children []
      else return plainSingle kind (← parts s a children) []
  | .block .norm body => pure (if s.multiLevel then normalizedParts a body else [])
  | .block kind body => pure (blockElement kind (fragments s a body .start).1)
  | .unread kind source => pure (unreadBlock s kind source)

/-- A sequence of parts of a fragment. -/
def fragments (s : Settings) (a : Apparatus) : List Part → Writing
  | [] => pure []
  | p :: ps => do
      let first ← fragment s a p
      let rest ← fragments s a ps
      return first ++ rest

end

/-- The markup of a flat sequence of nodes. -/
def ofNodes (s : Settings) (a : Apparatus) (ns : List Node) : Text :=
  let ns := if s.wordWrap then Node.grouped ns else ns
  let (text, progress) := parts s a (Part.ofNodes ns) .start
  if s.wrapPages && progress.inPage then text ++ "</p>\n" else text

/-- The markup of a transcription, or why it cannot be read. -/
def ofText (s : Settings) (a : Apparatus) (source : Text) : Except LexError Text :=
  ofNodes s a <$> Lexer.lex source

/-- The markup of a piece of transcription on its own. -/
def ofFragment (s : Settings) (a : Apparatus) (source : Text) : Text :=
  match Part.ofText? source with
  | some ps => (fragments s a ps .start).1
  | none => Markup.remark "parse error" source

/-- A group on its own, with attributes given as markup. -/
def loneGroup (s : Settings) (a : Apparatus) (kind : GroupKind) (children : List Part)
    (attrs : Text) : Text :=
  if s.multiLevel then plainLevels a kind children attrs
  else plainSingle kind (parts s a children .start).1 attrs

/-- The children of the first group of a kind. -/
def firstGroup? (kind : GroupKind) (ps : List Part) : Option (List Part) :=
  ps.findSome? fun
    | .group k children => if k = kind then some children else none
    | _ => none

/-- The first word of a piece of transcription, with the attributes of the
word it takes the place of. -/
def ofWord (s : Settings) (a : Apparatus) (source : Text) (attrs : Table Text) : Text :=
  match Part.ofText? source with
  | none => "<w>" ++ Markup.remark "parse error" source ++ "</w>\n"
  | some ps =>
      match firstGroup? .word ps with
      | some children => loneGroup s a .word children (Markup.attributes attrs.sorted)
      | none => "<w>" ++ Markup.remark "no word content" source ++ "</w>\n"

/-- The first punctuation mark of a piece of transcription. -/
def ofPunctuation (s : Settings) (a : Apparatus) (source : Text) : Text :=
  match Part.ofText? source with
  | none => "<pc>" ++ Markup.remark "parse error" source ++ "</pc>\n"
  | some ps =>
      match firstGroup? .punctuation ps with
      | some children => loneGroup s a .punctuation children []
      | none => Markup.element "pc" source ++ "\n"

end Edition

end Transcription
