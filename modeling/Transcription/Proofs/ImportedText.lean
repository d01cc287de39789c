/-
Transcription.Proofs.ImportedText — what is imported can be read.

The text of an orderly body has its brackets in constructs only. Such a text can be read,
but for one place that the lexer takes otherwise than it was written: a gap right after
what ends like the name of an abbreviation (`Lexer.Unmistaken`).

**`exists_lex_of_orderly`**: the text of such a document can be read where no gap stands so,
and none does where the texts of the body are kept apart from that name (`apart`). Edited
text that cannot be read deletes every word.

Supplied text inside the text supplied for a gap cannot be read (`lex_supplied_twice`).
-/
import Transcription.Proofs.OrderlyContent
import Transcription.Proofs.Unedited

namespace Transcription

open Lexer (Closed)

namespace Import

variable {source : Text} {read : Text → Option Xml.Element} {i : Import}
  {root body : Xml.Element}

theorem contents_of_error {edited : Text} {e : LexError} (h : Lexer.lex edited = .error e) :
    Token.contents edited = [] := by
  rw [Token.contents, h]

/-- Edited text that cannot be read deletes what has a token. -/
theorem edited_of_error (h : ofText source read = .ok i) {edited : Text} {e : LexError}
    (he : Lexer.lex edited = .error e) (hd : edited.trim ≠ i.dsl.trim) (s : Settings)
    (a : Apparatus) :
    i.manifest.edited edited s a
      = i.manifest.document (i.manifest.segments.flatMap fun segment =>
          if (Token.ofSegment? segment).isSome then [] else segment.serialize) := by
  rw [dsl_eq_toText h] at hd
  rw [Manifest.edited, Patch.compute_of_contents hd.symm (contents_of_error he),
    Patch.reconstruct_deletions s a (nodup_ids h)]

/-- The text of an orderly body has its brackets in constructs only. -/
theorem closed_toText_segments (h : orderlyAll false body.children = true) :
    Closed (Segment.toText (segments body)) :=
  (carried_toText carries_closed ⟨h, nofun⟩ : Fits false _).closed

/-- Where there are no gaps, or no text ends like a name, no gap is taken for an abbreviation. -/
theorem unmistaken_toText_segments {gaps : Bool} (h : orderlyAll false body.children = true)
    (ha : passesAll (apart gaps) body.children = true) :
    Lexer.Unmistaken (Segment.toText (segments body)) :=
  (carried_toText (carries_guarded gaps) ⟨⟨h, nofun⟩, ha⟩ :
    FitsApart gaps false _).guarded.unmistaken

/-- **The text of an imported document can be read**, where its body is orderly and no gap
stands right after what ends like the name of an abbreviation. None does where the body has
no gaps, or none of its texts is an end of the name or ends in it. Edited text that cannot
be read has no tokens, and deletes all segments that have one. -/
theorem exists_lex_of_orderly (h : ofText source read = .ok i) (hr : read source = some root)
    (hb : bodyOf? root = some body) :
    (orderlyAll false body.children = true → Lexer.Unmistaken i.dsl →
        ∃ ns, Lexer.lex i.dsl = .ok ns)
      ∧ (orderlyAll false body.children = true →
          ∀ gaps, passesAll (apart gaps) body.children = true → Lexer.Unmistaken i.dsl)
      ∧ ∀ edited e, Lexer.lex edited = .error e → edited.trim ≠ i.dsl.trim →
          Token.contents edited = [] ∧ ∀ (s : Settings) (a : Apparatus),
            i.manifest.edited edited s a
              = i.manifest.document (i.manifest.segments.flatMap fun segment =>
                  if (Token.ofSegment? segment).isSome then [] else segment.serialize) := by
  obtain ⟨root', body', hr', hb', rfl⟩ := exists_body h
  cases hr.symm.trans hr'
  cases hb.symm.trans hb'
  refine ⟨fun ho => Lexer.exists_lex_of_closed (closed_toText_segments ho),
    fun ho gaps ha => unmistaken_toText_segments ho ha, fun edited e he hd => ?_⟩
  exact ⟨contents_of_error he, edited_of_error h he hd⟩

/-- A word with a gap, its reading and a break, and an abbreviation. -/
theorem exists_lex_of_orderly_gap :
    let source : Text := "<TEI><body><w>a<gap/><supplied>b</supplied><lb n=\"x\"/></w> ".toList
      ++ "<choice><abbr>c</abbr><expan>cd</expan></choice></body></TEI>"
    ∃ i ns, ofText source = .ok i ∧ i.dsl = "a[...<b>]~//{x} .abbr[c]{cd}"
      ∧ Lexer.lex i.dsl = .ok ns := by
  intro source
  have text : Import.dsl <$> ofText source = .ok "a[...<b>]~//{x} .abbr[c]{cd}" := by decide +kernel
  obtain ⟨i, imported, dsl⟩ := Lexer.exists_of_map text
  obtain ⟨root, body, parsed, found, -⟩ := exists_body imported
  have orderly : ((Xml.read? source).bind bodyOf?).any
      (fun body => orderlyAll false body.children && passesAll (apart true) body.children)
        = true := by decide +kernel
  rw [parsed, Option.bind_some, found, Option.any_some, Bool.and_eq_true] at orderly
  obtain ⟨reads, told, -⟩ := exists_lex_of_orderly imported parsed found
  obtain ⟨ns, lexed⟩ := reads orderly.1 (told orderly.1 true orderly.2)
  exact ⟨i, ns, imported, dsl, lexed⟩

/-- Supplied text inside the text that is supplied for a gap: the reading of the gap ends at
its bracket. The text cannot be read, whatever follows, and with another word in the place
of the last one the document comes out without any words. -/
theorem lex_supplied_twice :
    let source : Text := "<TEI><body><p><w>a<gap/><supplied>b<supplied>c</supplied>".toList
      ++ "</supplied></w> <w>d</w></p></body></TEI>"
    ∃ i, ofText source = .ok i ∧ i.dsl = "a[...<b<c>>] d"
      ∧ (∀ after, ∃ e, Lexer.lex ("a[...<b<c>>]".toList ++ after) = .error e)
      ∧ ∀ (s : Settings) (a : Apparatus),
          i.manifest.edited "a[...<b<c>>] e" s a = "<TEI><body><p> </p></body></TEI>".toList := by
  intro source
  let i : Import :=
    { dsl := "a[...<b<c>>] d"
      manifest :=
        { segments := [.structural 0 "<p>",
            .word 1 "<w>a<gap/><supplied>b<supplied>c</supplied></supplied></w>" "a[...<b<c>>]" []
              false,
            .whitespace 2 " ", .word 3 "<w>d</w>" "d" [] false, .structural 4 "</p>"]
          isMultilevel := false
          preamble := "<TEI>"
          bodyOpenTag := "<body>"
          postamble := "</TEI>" }
      bodyXml := "<body><p><w>a<gap/><supplied>b<supplied>c</supplied></supplied></w> ".toList
        ++ "<w>d</w></p></body>" }
  have imported : ofText source = .ok i := by decide +kernel
  have fault (after : Text) : ∃ e, Lexer.lex ("a[...<b<c>>]".toList ++ after) = .error e := by
    have plain : Lexer.construct ('a' :: ("[...<b<c>>]".toList ++ after)) = .ok none := rfl
    obtain ⟨e, gap⟩ : ∃ e, Lexer.construct ('[' :: ("...<b<c>>]".toList ++ after)) = .error e :=
      ⟨_, rfl⟩
    have rest : Lexer.lex ("[...<b<c>>]".toList ++ after) = .error _ := Lexer.lex_fault gap
    exact ⟨_, (Lexer.lex_char plain).trans (by rw [rest]; rfl)⟩
  obtain ⟨e, error⟩ := fault " e"
  refine ⟨i, imported, rfl, fault, fun s a => ?_⟩
  exact edited_of_error imported error (by decide) s a

end Import

end Transcription
