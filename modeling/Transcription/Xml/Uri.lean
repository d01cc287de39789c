/-
Transcription.Xml.Uri — references to resources, which name namespaces.

A reference is absolute when it begins with a scheme, and relative
otherwise. Letters, digits and marks beyond the plain ones are written by
their numbers after a percent sign. A fragment may hold brackets, and what
stands in brackets for a host is not looked at.
-/
import Transcription.Text.Basic

namespace Transcription.Xml.Uri

/-- Whether a character is a letter or digit that needs no escape. -/
def isPlain (c : Char) : Bool :=
  c.isAlphanum || "-._~!$&'()*+,;=".toList.contains c

/-- Whether a character is a digit to the base sixteen. -/
def isHexDigit (c : Char) : Bool :=
  c.isDigit || ('a' ≤ c && c ≤ 'f') || ('A' ≤ c && c ≤ 'F')

/-- What follows the plain and the escaped characters at the start, and
those that `more` allows. -/
def skip (more : Char → Bool) : Text → Text
  | '%' :: a :: b :: t => if isHexDigit a && isHexDigit b then skip more t else '%' :: a :: b :: t
  | c :: t => if isPlain c || more c then skip more t else c :: t
  | [] => []

/-- Whether a character may stand in a path besides. -/
def inPath (c : Char) : Bool :=
  c = ':' || c = '@' || c = '/'

/-- The greatest number that a host may have. -/
def greatestNumber : Nat := 2147483647

/-- What follows the number of a host with its colon, if there is one. -/
def afterNumber? : Text → Option Text
  | ':' :: t =>
      let (digits, rest) := Text.span Text.isDigit t
      if digits.isEmpty || greatestNumber < Text.digitsValue digits then none else some rest
  | t => some t

/-- What follows a host with the user before it and the number after it. -/
def afterAuthority? (t : Text) : Option Text :=
  let host := match skip (· = ':') t with
    | '@' :: rest => rest
    | _ => t
  match host with
  | '[' :: t => (Text.upTo? ']' t).bind fun (_, rest) => afterNumber? rest
  | t => afterNumber? (skip (fun _ => false) t)

/-- What follows a path that begins with a slash, if there is one. -/
def afterSlashed : Text → Text
  | '/' :: t => skip inPath t
  | t => t

/-- What follows two slashes, an authority and a path, or else a path that
`path` passes over. -/
def afterPlace? (path : Text → Text) : Text → Option Text
  | '/' :: '/' :: t => (afterAuthority? t).map afterSlashed
  | t => some (path t)

/-- Whether a text is a query and a fragment, each of them optional. -/
def isEnding (t : Text) : Bool :=
  let afterQuery := match t with
    | '?' :: t => skip (fun c => inPath c || c = '?') t
    | t => t
  match afterQuery with
  | '#' :: t => (skip (fun c => inPath c || c = '?' || c = '[' || c = ']') t).isEmpty
  | t => t.isEmpty

/-- What follows a scheme with its colon. -/
def afterScheme? : Text → Option Text
  | [] => none
  | c :: t =>
      if c.isAlpha then
        match t.dropWhile fun c => c.isAlphanum || c = '+' || c = '-' || c = '.' with
        | ':' :: rest => some rest
        | _ => none
      else none

/-- Whether a text is an absolute reference. -/
def isAbsolute (t : Text) : Bool :=
  ((afterScheme? t).bind (afterPlace? (skip inPath))).any isEnding

/-- Whether a text is a relative reference: no colon stands in the first
part of its path. -/
def isRelative (t : Text) : Bool :=
  (afterPlace? (fun t => afterSlashed (skip (· = '@') t)) t).any isEnding

/-- Whether a text is a reference. -/
def isReference (t : Text) : Bool :=
  isAbsolute t || isRelative t

end Transcription.Xml.Uri
