/-
Transcription.Xml.Prolog — what stands before the element of a document: its
declaration, and its type with what that declares.
-/
import Transcription.Xml.DocumentType
import Transcription.Xml.Encoding

namespace Transcription.Xml

/-! ## 1. The declaration -/

/-- What the declaration at the start says. -/
structure Declaration where
  encoding : Option Text
  standalone : Bool
  deriving DecidableEq, Repr

/-- A named value of the declaration with blanks before it, if it comes
next. -/
def named? (name : Text) (t : Text) : Option (Option Text × Text) :=
  match (afterSpace? t).bind (Text.after? name) with
  | none => some (none, t)
  | some rest => do
      let (value, rest) ← quotedText? (← afterEquals? rest)
      some (some value, rest)

/-- Whether a version is one that can be read. -/
def isKnownVersion : Text → Bool
  | '1' :: '.' :: digits => digits.all Text.isDigit
  | _ => false

/-- The declaration after `<?xml`, and what follows it. -/
def declarationRest? (t : Text) : Option (Declaration × Text) := do
  let (version, t) ← named? "version" t
  let (encoding, t) ← named? "encoding" t
  let (standalone, t) ← named? "standalone" t
  let standalone ← match standalone with
    | none => some false
    | some v =>
        if v = ("yes" : Text) then some true
        else if v = ("no" : Text) then some false
        else none
  match version, Text.after? "?>" (skipSpace t) with
  | some v, some rest =>
      if isKnownVersion v && encoding.all isEncodingName then some (⟨encoding, standalone⟩, rest)
      else none
  | _, _ => none

/-- The declaration at the start of a text, if there is one, and what
follows it. -/
def declarationOf? (t : Text) : Option (Declaration × Text) :=
  match Text.after? "<?xml" t with
  | some rest =>
      match rest with
      | c :: _ => if isSpace c then declarationRest? rest else some (⟨none, false⟩, t)
      | [] => some (⟨none, false⟩, t)
  | none => some (⟨none, false⟩, t)

/-! ## 2. The prolog -/

/-- What stands before the element: what is declared, and the notices. -/
structure Prolog where
  declarations : Declarations
  tally : Tally

/-- What stands before the element, up to the end of the document type or to
the element, after the notices so far, and what follows it. -/
def prolog? (standalone : Bool) : (fuel : Nat) → Tally → Text → Option (Prolog × Text)
  | 0, tally, t => some (⟨.empty, tally⟩, t)
  | fuel + 1, tally, t =>
      let t := skipSpace t
      match Text.after? "<!DOCTYPE" t with
      | some t =>
          (DocumentType.read? standalone tally t).map fun (d, rest) =>
            (⟨d.declarations, d.tally⟩, rest)
      | none =>
          if Text.startsWith t "<!--" || Text.startsWith t "<?" then do
            let (notices, rest) ← remark? t
            prolog? standalone fuel (notices.foldl Tally.take tally) rest
          else some (⟨.empty, tally⟩, t)

end Transcription.Xml
