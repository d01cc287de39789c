/-
Transcription.Xml.ContentModel — how a document type says what its elements
hold: nothing, anything, text with elements in any order, or groups of
elements.

What is said is not looked at any further; only its form counts. All parts
of a group have one sign between them, and groups are nested to a depth.
-/
import Transcription.Xml.Name

namespace Transcription.Xml.ContentModel

/-- How deep groups may be nested. -/
def greatestDepth : Nat := 256

/-- What follows the sign that tells how often a part occurs, if there is
one. -/
def afterCount : Text → Text
  | '?' :: t => t
  | '*' :: t => t
  | '+' :: t => t
  | t => t

/-- What follows a name. -/
def afterName? (t : Text) : Option Text :=
  (fullName? t).map Prod.snd

/-- What follows the parts of a group and its closing bracket, when `part`
tells what follows a part and `sign` has come between parts before. -/
def afterParts? (part : Text → Option Text) : (fuel : Nat) → (sign : Option Char) → Text →
    Option Text
  | 0, _, _ => none
  | fuel + 1, sign, t => do
      let t ← part (skipSpace t)
      match skipSpace t with
      | ')' :: rest => some (afterCount rest)
      | c :: rest =>
          if (c = ',' || c = '|') && sign.all (· = c) then afterParts? part fuel (some c) rest
          else none
      | [] => none

/-- What follows a part of a group: a name, or a group where they may be
nested to a depth. -/
def afterPart? : (depth : Nat) → Text → Option Text
  | depth + 1, '(' :: t => afterParts? (afterPart? depth) (t.length + 1) none t
  | _, t => (afterName? t).map afterCount

/-- What follows the names of the elements among text, and the end of their
group. -/
def afterMixed? : (fuel : Nat) → Text → Option Text
  | 0, _ => none
  | fuel + 1, t =>
      match skipSpace t with
      | ')' :: '*' :: rest => some rest
      | '|' :: rest => (afterName? (skipSpace rest)).bind (afterMixed? fuel)
      | _ => none

/-- What follows a group that holds text, after the sign of text. -/
def afterText? (t : Text) : Option Text :=
  match skipSpace t, afterMixed? (t.length + 1) t with
  | _, some rest => some rest
  | ')' :: rest, none => some rest
  | _, none => none

/-- What follows what an element holds. -/
def after? (t : Text) : Option Text :=
  match Text.after? "EMPTY" t, Text.after? "ANY" t, t with
  | some rest, _, _ => some rest
  | none, some rest, _ => some rest
  | none, none, '(' :: inner =>
      match Text.after? "#PCDATA" (skipSpace inner) with
      | some rest => afterText? rest
      | none => afterPart? greatestDepth t
  | none, none, _ => none

end Transcription.Xml.ContentModel
