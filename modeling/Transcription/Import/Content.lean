/-
Transcription.Import.Content — the content of an element as transcription
text.

Editorial elements become the marks of transcription text and levels the
text of the first one that has any: facsimile, diplomatic, normalized. A
facsimile with an abbreviation mark, or a diplomatic level with an expansion,
becomes an abbreviation. Along with the text goes whether a line break has
been met in anything that was read, also where that text is not used.

The readers of single elements take the reader of nested content as an
argument; the nesting of elements bounds the recursion.
-/
import Transcription.Node.Printer
import Transcription.Xml.Basic

namespace Transcription.Import

open Xml (Tag findFirst? elements hasElements)

/-- Text that is read along with whether a line break has been met. -/
abbrev Reading := StateM Bool

/-- A reader of content; the flag allows content of the normalized level to
be marked as such. -/
abbrev ContentReader := Bool → List Xml.Node → Reading Text

/-! ## 1. Text and gaps -/

/-- Text so far, with a space unless it is empty or ends in one. -/
def spaced (out : Text) : Text :=
  if out.isEmpty || out.endsIn ' ' then out else out ++ [' ']

/-- A run of text after the text so far, its blanks collapsed: one at the
start counts only after other text, one at the end only before more. -/
def appendText (out content : Text) (more : Bool) : Text :=
  let collapsed := Text.join " " (Text.words content)
  if collapsed.isEmpty then out
  else
    let startBlank := (content.head?.map isBlank).getD false
    let endBlank := (content.getLast?.map isBlank).getD false
    let out := (if startBlank then spaced out else out) ++ collapsed
    if endBlank && more then spaced out else out

/-- A gap with the digits of its quantity and a reading that is not
blank. -/
def gapText (tag : Tag) (reading : Text) : Text :=
  let digits := ((tag.value? "quantity").getD []).filter Text.isDigit
  let reading := Text.trim reading
  let reading := if reading.isEmpty then [] else '<' :: reading ++ ['>']
  "[..." ++ digits ++ reading ++ [']']

/-- The mark that an element stands for. -/
def markOf? (name : Text) : Option Mark :=
  if name = ("del" : Text) then some .deletion
  else if name = ("add" : Text) then some .addition
  else if name = ("unclear" : Text) then some .unclear
  else if name = ("note" : Text) then some .note
  else none

/-- An abbreviation with its expansion. -/
def abbreviationText (abbr expansion : Text) : Text :=
  ".abbr[" ++ abbr ++ ']' :: '{' :: expansion ++ ['}']

/-- A block with its body. -/
def blockText (kind : BlockKind) (body : Text) : Text :=
  kind.opening ++ body ++ ['}']

/-- A mark around text, and nothing around nothing. -/
def markText (mark : Mark) (content : Text) : Text :=
  if content.isEmpty then [] else mark.opening ++ content ++ mark.closing

/-! ## 2. Levels -/

section Readers

variable (read : ContentReader)

/-- Content without blanks around it. -/
def trimmed (allowNorm : Bool) (ns : List Xml.Node) : Reading Text :=
  Text.trim <$> read allowNorm ns

/-- The text of a level, unless it is absent or empty. -/
def levelText (level : Text) (ns : List Xml.Node) : Reading (Option Text) :=
  match findFirst? level ns with
  | none => pure none
  | some e => do
      let text ← trimmed read true e.children
      return if text.isEmpty then none else some text

/-- The abbreviation that the facsimile and the diplomatic level make, if
one of them marks it and neither is empty. -/
def levelAbbreviation (ns : List Xml.Node) : Reading (Option Text) :=
  match findFirst? "facs" ns, findFirst? "dipl" ns with
  | some facs, some dipl =>
      if (findFirst? "am" facs.children).isNone && (findFirst? "ex" dipl.children).isNone then
        pure none
      else do
        let abbr ← trimmed read true facs.children
        let expansion ← trimmed read true dipl.children
        return if abbr.isEmpty || expansion.isEmpty then none
          else some (abbreviationText abbr expansion)
  | _, _ => pure none

/-- The first level with text, or else the content itself. Text of the
normalized level alone is marked as such where that is allowed. -/
def levels (allowNorm : Bool) (ns : List Xml.Node) : Reading Text := do
  let facs ← levelText read "facs" ns
  let dipl ← levelText read "dipl" ns
  let norm ← levelText read "norm" ns
  match facs, dipl, norm with
  | some text, _, _ => return text
  | none, some text, _ => return text
  | none, none, some text => return if allowNorm then blockText .norm text else text
  | none, none, none =>
      trimmed read allowNorm (((findFirst? "facs" ns).map Xml.Element.children).getD ns)

/-- The content of a word. -/
def word (allowNorm : Bool) (ns : List Xml.Node) : Reading Text := do
  match ← levelAbbreviation read ns with
  | some text => return text
  | none => levels read allowNorm ns

/-- The last short form and the last expansion among the elements of a
choice. -/
def choicePair (allowNorm : Bool) :
    List Xml.Element → (abbr expansion : Option Text) → Reading (Option Text × Option Text)
  | [], abbr, expansion => pure (abbr, expansion)
  | e :: es, abbr, expansion => do
      if e.tag.localName = ("abbr" : Text) then
        let text ← read allowNorm e.children
        choicePair allowNorm es (some text) expansion
      else if e.tag.localName = ("expan" : Text) then
        let text ← read allowNorm e.children
        choicePair allowNorm es abbr (some text)
      else choicePair allowNorm es abbr expansion

/-- A choice: a short form with its expansion, or else levels. -/
def choice (allowNorm : Bool) (ns : List Xml.Node) : Reading Text := do
  match ← choicePair read allowNorm (elements ns) none none with
  | (some abbr, some expansion) => return abbreviationText abbr expansion
  | _ => word read allowNorm ns

/-! ## 3. Elements -/

/-- Supplied content: a block when it holds elements, else a mark. -/
def supplied (allowNorm : Bool) (ns : List Xml.Node) : Reading Text := do
  if hasElements ns then
    let text ← trimmed read false ns
    return if text.isEmpty then [] else blockText .supplied text
  else return markText .supplied (← trimmed read allowNorm ns)

/-- The text so far with that of an element other than a gap. -/
def appendElement (allowNorm : Bool) (out : Text) (tag : Tag) (ns : List Xml.Node) :
    Reading Text := do
  let name := tag.localName
  if name = ("choice" : Text) then return out ++ (← choice read allowNorm ns)
  else if name = ("w" : Text) then return spaced out ++ (← word read allowNorm ns)
  else if name = ("pc" : Text) then return out ++ (← levels read allowNorm ns)
  else if name = ("c" : Text) then
    let text ← read allowNorm ns
    return out ++ if text.isEmpty then Xml.plainTextAll ns else text
  else if name = ("supplied" : Text) then return out ++ (← supplied read allowNorm ns)
  else if name = ("lb" : Text) then
    set true
    return out ++ BreakKind.line.write (tag.value? "n") true
  else if name = ("dipl" : Text) ∨ name = ("norm" : Text) then return out
  else
    match markOf? name with
    | some mark => return out ++ markText mark (← trimmed read allowNorm ns)
    | none => return out ++ (← read allowNorm ns)

/-- The text so far with that of nodes. A gap takes the supplied text right
after it as its reading, if there is any. -/
def appendAll (allowNorm : Bool) (out : Text) : List Xml.Node → Reading Text
  | [] => pure out
  | .text content :: ns => appendAll allowNorm (appendText out content !ns.isEmpty) ns
  | .reference name :: ns => appendAll allowNorm (out ++ ':' :: name ++ [':']) ns
  | .element tag children :: ns => do
      if tag.localName = ("gap" : Text) then
        match ns with
        | .element next inner :: rest =>
            if next.localName = ("supplied" : Text) then
              let reading ← trimmed read allowNorm inner
              if reading.isEmpty then
                appendAll allowNorm (out ++ gapText tag []) (.element next inner :: rest)
              else appendAll allowNorm (out ++ gapText tag reading) rest
            else appendAll allowNorm (out ++ gapText tag []) (.element next inner :: rest)
        | ns => appendAll allowNorm (out ++ gapText tag []) ns
      else appendAll allowNorm (← appendElement read allowNorm out tag children) ns
  | _ :: ns => appendAll allowNorm out ns

end Readers

/-! ## 4. Content -/

/-- Content with elements nested less deeply than `depth`. -/
def contentTo : (depth : Nat) → ContentReader
  | 0, _, _ => pure []
  | depth + 1, allowNorm, ns => appendAll (contentTo depth) allowNorm [] ns

/-- The content of an element. -/
def content : ContentReader := fun allowNorm ns =>
  contentTo (Xml.depthAll ns + 1) allowNorm ns

end Transcription.Import
