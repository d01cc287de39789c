/-
Transcription.Import.Segments — the segments of the body of a document.

Words, punctuation marks, breaks, choices, gaps and editorial elements with
text become one segment each. Every other element is kept as its tags
around the segments of its content, and so is an editorial element without
text. Segments are numbered in order when all have been found.
-/
import Transcription.Import.Content
import Transcription.Segment.Basic

namespace Transcription.Import

open Xml (Tag Element hasElements)

/-- A segment that waits for its number. -/
abbrev Draft := Int → Segment

/-! ## 1. Text -/

/-- Text cut into runs of blanks and runs of other characters. -/
def runs : Text → List Text
  | [] => []
  | c :: t =>
      match t, runs t with
      | d :: _, run :: rest =>
          if isBlank c = isBlank d then (c :: run) :: rest else [c] :: run :: rest
      | _, rest => [c] :: rest

/-- The segment of a run: a blank, or a word that stands for itself. -/
def ofRun (run : Text) : Draft := fun id =>
  if Text.allBlank run then .whitespace id run
  else .word id (Markup.escapeText run) run [] false

/-! ## 2. Elements -/

/-- What a reader makes of some content, and whether a line break was met. -/
def run {α : Type} (reading : Reading α) : α × Bool :=
  reading.run false

/-- Content without blanks around it. -/
def innerText (allowNorm : Bool) (ns : List Xml.Node) : Text :=
  (run (trimmed content allowNorm ns)).1

/-- An element as a word of its own. -/
def inlineDraft (tag : Tag) (ns : List Xml.Node) (dsl : Text) : Draft := fun id =>
  .word id (Xml.Node.write (.element tag ns)) dsl [] false

/-- A word element, or a choice in the place of one, as a word. -/
def wordDraft (tag : Tag) (ns : List Xml.Node) (reading : Reading Text) : Draft := fun id =>
  let (dsl, breaksLine) := run reading
  .word id (Xml.Node.write (.element tag ns)) dsl tag.values breaksLine

/-- The text of an element that is a segment only when it has some. -/
def editorialText (tag : Tag) (ns : List Xml.Node) : Text :=
  let name := tag.localName
  if name = ("supplied" : Text) then (run (supplied content true ns)).1
  else if name = ("am" : Text) then if hasElements ns then [] else innerText true ns
  else if name = ("head" : Text) then
    let text := innerText true ns
    if text.isEmpty then [] else blockText .head text
  else
    match markOf? name with
    | some mark => markText mark (innerText true ns)
    | none => []

/-- The segment of an element, unless it is kept as its tags. -/
def elementDraft? (tag : Tag) (ns : List Xml.Node) : Option Draft :=
  let name := tag.localName
  if name = ("w" : Text) then some (wordDraft tag ns (word content true ns))
  else if name = ("pc" : Text) then
    let dsl := (run (levels content true ns)).1
    some fun id => .punctuation id (Xml.Node.write (.element tag ns)) dsl
  else if name = ("lb" : Text) then some fun id => .milestone .line id tag.values
  else if name = ("pb" : Text) then some fun id => .milestone .page id tag.values
  else if name = ("handShift" : Text) then some fun id => .milestone .hand id tag.values
  else if name = ("choice" : Text) then some (wordDraft tag ns (choice content true ns))
  else if name = ("gap" : Text) then some (inlineDraft tag ns (gapText tag []))
  else
    let dsl := editorialText tag ns
    if dsl.isEmpty then none else some (inlineDraft tag ns dsl)

/-! ## 3. Bodies -/

mutual

/-- The segments of a node. -/
def drafts : Xml.Node → List Draft
  | .text t => (runs t).map ofRun
  | .comment t => [fun id => .structural id (Xml.Node.write (.comment t))]
  | .reference name => [fun id => .word id (Markup.reference name) (':' :: name ++ [':']) [] false]
  | .instruction => []
  | .element tag ns =>
      match elementDraft? tag ns with
      | some draft => [draft]
      | none =>
          if ns.isEmpty then [fun id => .structural id tag.empty]
          else
            (fun id => .structural id tag.opening) :: draftsAll ns
              ++ [fun id => .structural id tag.closing]

/-- The segments of nodes one after the other. -/
def draftsAll : List Xml.Node → List Draft
  | [] => []
  | n :: ns => drafts n ++ draftsAll ns

end

/-- Segments numbered in order, from a first number on. -/
def numberFrom (first : Int) : List Draft → List Segment
  | [] => []
  | d :: ds => d first :: numberFrom (first + 1) ds

/-- The segments of the content of a body. -/
def segments (body : Element) : List Segment :=
  numberFrom 0 (draftsAll body.children)

/-- Whether a word has a facsimile level, right inside it or inside a
choice in it. -/
def hasLevels (word : Element) : Bool :=
  let isLevel (e : Element) : Bool := e.tag.localName = ("facs" : Text)
  (Xml.elements word.children).any fun child =>
    isLevel child
      || child.tag.localName = ("choice" : Text) && (Xml.elements child.children).any isLevel

/-- Whether any word of a body has levels. -/
def isMultilevel (body : Element) : Bool :=
  (Xml.Node.descendants (.element body.tag body.children)).any fun e =>
    e.tag.localName = ("w" : Text) && hasLevels e

end Transcription.Import
