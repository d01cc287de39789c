/-
Transcription.Proofs.VisibleCharacters — the positions in a facsimile are those of the
characters that the nodes of the word show.

Ranges of characters count the visible pieces of the facsimile, which are found by cutting its
markup again. Node by node the markup is made of pieces that are cut off alike whatever follows
them (`complete_of_mem_piecesOf`): a character is escaped as one reference or is none of the
signs that begin a piece, the tags around it hold no closing bracket before their end, and a
name that is made of the characters of names does not end its reference. So cutting gives back
the pieces that were put together (`pieces_flatMap_self`).

**`characters_of_facsimile`**: the visible pieces of a facsimile are, node by node and in order,
the characters that the nodes show, and all other pieces are the tags of the elements around
them.
-/
import Transcription.Proofs.Quotes

namespace Transcription

open Markup CharacterRange

/-- The markup of a visible character. -/
def CharacterRange.Piece.visible? : Piece → Option Text
  | .visible t => some t
  | .tag _ => none

/-! ## 1. What a node shows -/

/-- The tags that stand before the characters of a node in the facsimile, and those behind. -/
def Node.facsimileTags : Node → List Text × List Text
  | .abbreviation _ _ => ([startTag "abbr" []], [endTag "abbr"])
  | .gap quantity _ => ([Markup.gap quantity], [])
  | .marked .supplied _ => ([], [])
  | .marked mark _ => ([startTag mark.tag []], [endTag mark.tag])
  | _ => ([], [])

namespace Apparatus

/-- The characters of a named character: none for a combining mark, those of the base letter
where there is one, and else one, the reference. -/
def charactersOfName (a : Apparatus) (name : Text) : List Text :=
  match a.dictionary with
  | none => [reference name]
  | some d =>
      if d.isCombiningMark name then []
      else
        match d.baseLetter name with
        | some letters => letters.map escapeChar
        | none => [reference name]

/-- The characters that a node shows in the facsimile, each as it is written: those of the text,
of the short form of an abbreviation and of the text in a mark, and a blank for the joint of a
compound. What the editor supplied, gaps, breaks and blocks show none. -/
def charactersOf (a : Apparatus) : Node → List Text
  | .text content => content.map escapeChar
  | .entity name => a.charactersOfName name
  | .abbreviation abbr _ => abbr.map escapeChar
  | .marked .supplied _ => []
  | .marked _ content => content.map escapeChar
  | .compoundJoin => [[' ']]
  | _ => []

/-- The pieces that the facsimile of a node is put together from. -/
def piecesOf (a : Apparatus) (n : Node) : List Piece :=
  n.facsimileTags.1.map .tag ++ (a.charactersOf n).map .visible ++ n.facsimileTags.2.map .tag

section Pieces

variable {a : Apparatus} {n : Node} {ns : List Node} {name : Text} {ps : List Piece}

theorem text_map {piece : Text → Piece} (h : ∀ t, pieceText (piece t) = t) (ts : List Text) :
    (ts.map piece).flatMap pieceText = ts.flatten := by
  rw [List.flatMap_map, List.flatMap_def, funext h]
  exact congrArg List.flatten (List.map_id ts)

theorem flatten_charactersOfName (a : Apparatus) (name : Text) :
    (a.charactersOfName name).flatten = a.facsimileOf (.entity name) := by
  unfold charactersOfName facsimileOf reduced
  cases a.dictionary with
  | none => exact List.append_nil _
  | some d =>
    show List.flatten (if d.isCombiningMark name then [] else _)
      = match (if d.isCombiningMark name then some [] else d.baseLetter name) with
        | some letters => escape letters
        | none => reference name
    by_cases combining : d.isCombiningMark name = true
    · rw [if_pos combining, if_pos combining]
      rfl
    · rw [if_neg combining, if_neg combining]
      cases d.baseLetter name with
      | some letters => exact List.flatMap_def.symm
      | none => exact List.append_nil _

/-- The pieces of a node make up its facsimile. -/
theorem text_piecesOf (a : Apparatus) (n : Node) :
    (a.piecesOf n).flatMap pieceText = a.facsimileOf n := by
  have escaped (t : Text) : (t.map escapeChar).flatten = escape t := List.flatMap_def.symm
  have framed (tag content : Text) : [startTag tag []].flatten ++ (content.map escapeChar).flatten
      ++ [endTag tag].flatten = element tag content := by
    simp [escaped, startTag, endTag, element, wrap]
  rw [piecesOf, List.flatMap_append, List.flatMap_append, text_map fun _ => rfl,
    text_map fun _ => rfl, text_map fun _ => rfl]
  cases n with
  | text content => exact (List.append_nil _).trans (escaped content)
  | entity name => exact (List.append_nil _).trans (flatten_charactersOfName a name)
  | abbreviation abbr expansion => exact framed "abbr" abbr
  | marked mark content =>
    cases mark with
    | supplied => rfl
    | deletion | addition | note | unclear => exact framed _ content
  | gap quantity reading => simp [Node.facsimileTags, charactersOf, facsimileOf]
  | _ => rfl

/-! ## 2. Pieces that are cut off alike -/

theorem complete_of_mem_characters {t u : Text} (h : u ∈ t.map escapeChar) :
    Complete (.visible u) := by
  obtain ⟨c, -, rfl⟩ := List.mem_map.1 h
  exact complete_escapeChar c

theorem complete_of_mem_charactersOf (closed : n.ClosedName) {u : Text}
    (h : u ∈ a.charactersOf n) : Complete (.visible u) := by
  cases n with
  | text content => exact complete_of_mem_characters h
  | abbreviation abbr expansion => exact complete_of_mem_characters h
  | marked mark content =>
    cases mark with
    | supplied => cases h
    | deletion | addition | note | unclear => exact complete_of_mem_characters h
  | compoundJoin =>
    rw [List.mem_singleton.1 h]
    exact complete_char (by decide) (by decide)
  | entity name =>
    have kept : Complete (.visible (reference name)) := complete_reference (closed name rfl)
    rw [charactersOf, charactersOfName] at h
    split at h
    · exact List.mem_singleton.1 h ▸ kept
    · split at h
      · cases h
      · split at h
        · exact complete_of_mem_characters h
        · exact List.mem_singleton.1 h ▸ kept
  | _ => cases h

theorem complete_of_mem_facsimileTags {t : Text}
    (h : t ∈ n.facsimileTags.1 ∨ t ∈ n.facsimileTags.2) : Complete (.tag t) := by
  have framed {tag : Text} (ht : isName tag = true) (h : t ∈ [startTag tag []] ∨ t ∈ [endTag tag]) :
      Complete (.tag t) := by
    rcases h with h | h
    · exact List.mem_singleton.1 h ▸ complete_startTag ht .nil
    · exact List.mem_singleton.1 h ▸ complete_endTag ht
  cases n with
  | abbreviation abbr expansion => exact framed (by decide) h
  | marked mark content =>
    cases mark with
    | supplied => rcases h with h | h <;> cases h
    | deletion | addition | note | unclear => exact framed (Mark.isName_tag _) h
  | gap quantity reading =>
    rcases h with h | h
    · exact List.mem_singleton.1 h ▸ complete_gap quantity
    · cases h
  | _ => rcases h with h | h <;> cases h

/-- Whatever follows it, a piece of a node is cut off as it was put there. -/
theorem complete_of_mem_piecesOf (closed : n.ClosedName) {p : Piece} (h : p ∈ a.piecesOf n) :
    Complete p := by
  simp only [piecesOf, List.mem_append, List.mem_map] at h
  rcases h with (⟨t, ht, rfl⟩ | ⟨t, ht, rfl⟩) | ⟨t, ht, rfl⟩
  · exact complete_of_mem_facsimileTags (.inl ht)
  · exact complete_of_mem_charactersOf closed ht
  · exact complete_of_mem_facsimileTags (.inr ht)

/-- The visible ones among the pieces of a node are its characters. -/
theorem visible_piecesOf (a : Apparatus) (n : Node) :
    (a.piecesOf n).filterMap Piece.visible? = a.charactersOf n := by
  have hidden (ts : List Text) : (ts.map Piece.tag).filterMap Piece.visible? = [] :=
    List.filterMap_eq_nil_iff.2 (by simp [Piece.visible?])
  have shown (ts : List Text) : (ts.map Piece.visible).filterMap Piece.visible? = ts := by
    rw [List.filterMap_map]
    exact List.filterMap_some
  rw [piecesOf, List.filterMap_append, List.filterMap_append, hidden, hidden, shown,
    List.nil_append, List.append_nil]

end Pieces

/-! ## 3. The characters of a word -/

/-- **Positions count the characters that a word shows.** For every apparatus and every list of
nodes whose named characters have names of letters, digits and underscores: the visible pieces of
the facsimile are the characters of the nodes one after the other, and the facsimile as a whole is
cut into these characters and the tags of the elements around them. -/
theorem characters_of_facsimile (a : Apparatus) {ns : List Node}
    (named : ∀ name, .entity name ∈ ns → ∀ c ∈ name, Lexer.isNameChar c = true) :
    (pieces (a.facsimile ns)).filterMap Piece.visible? = ns.flatMap a.charactersOf
      ∧ pieces (a.facsimile ns) = ns.flatMap a.piecesOf := by
  have cut : pieces (a.facsimile ns) = ns.flatMap a.piecesOf := by
    have text : (ns.flatMap a.piecesOf).flatMap pieceText = a.facsimile ns := by
      rw [List.flatMap_assoc, facsimile]
      exact congrArg (List.flatMap · ns) (funext (text_piecesOf a))
    rw [← text]
    refine pieces_flatMap_self fun p hp => ?_
    obtain ⟨n, hn, hp⟩ := List.mem_flatMap.1 hp
    have closed : n.ClosedName := fun name same => not_mem_of_isNameChar (named name (same ▸ hn))
    exact complete_of_mem_piecesOf closed hp
  refine ⟨?_, cut⟩
  rw [cut, List.filterMap_flatMap]
  exact congrArg (List.flatMap · ns) (funext (visible_piecesOf a))

/-- Signs of markup in texts and in the letters of a named character, a combining mark and a
name that stays a reference. -/
theorem characters_of_facsimile_signs :
    let a : Apparatus :=
      { Apparatus.empty with dictionary := some (.ofParts ["acute"] [] [] [("rrot", "r\">")]) }
    let word : List Node :=
      [.text "a&;", .entity "rrot", .entity "acute", .entity "eth", .gap none (some "x"),
        .marked .deletion "<b>", .marked .supplied "c", .compoundJoin, .abbreviation "d" "e",
        .lineBreak none]
    (∀ name, .entity name ∈ word → ∀ c ∈ name, Lexer.isNameChar c = true)
      ∧ a.facsimile word = "a&amp;;r&quot;&gt;&eth;<gap reason=\"illegible\"/>"
        ++ "<del>&lt;b&gt;</del> <abbr>d</abbr>"
      ∧ (pieces (a.facsimile word)).filterMap Piece.visible?
        = (["a", "&amp;", ";", "r", "&quot;", "&gt;", "&eth;", "&lt;", "b", "&gt;", " ", "d"]
          : List Text) := by
  intro a word
  have named : ∀ name, .entity name ∈ word → ∀ c ∈ name, Lexer.isNameChar c = true := by
    intro name hn
    simp only [word, List.mem_cons, Node.entity.injEq, List.not_mem_nil, reduceCtorEq, false_or,
      or_false] at hn
    rcases hn with rfl | rfl | rfl <;> exact Text.forall_of_check (by decide +kernel)
  refine ⟨named, by decide +kernel, (characters_of_facsimile a named).1.trans ?_⟩
  decide +kernel

end Apparatus

end Transcription
