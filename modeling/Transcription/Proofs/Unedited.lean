/-
Transcription.Proofs.Unedited — what comes out of a document that was not edited.

The segments of a body come out as they stand, between the text that was found before
the body, its opening tag and the text that was found after it. These are looked for in
the source, not in the tree that is read from it: the first tag that reads like one of a
body, up to its first angle bracket, and the first closing tag from there (`Framed`).

**`edited_eq_source_iff`**: where the body stands in that place, the document comes out
as it was if and only if the segments write what stands in the body.

The body may stand elsewhere: a comment before it that holds its tag takes its place
(`edited_after_comment`).
-/
import Transcription.Session
import Transcription.Proofs.Seams
import Transcription.Proofs.Segments

namespace Transcription

/-! ## 1. Searching -/

namespace Text

variable {c : Char} {mark u v rest before : Text}

/-- A sign that holds its first character once stands in no place that reaches beyond
the next such character. -/
theorem prefix_of_append (hc : c ∉ mark) (hu : u ≠ []) (h : (c :: mark) <+: u ++ c :: v) :
    (c :: mark) <+: u := by
  obtain ⟨rest, hr⟩ := h
  rcases List.append_eq_append_iff.1 hr with ⟨w, hw, -⟩ | ⟨w, hw, hv⟩
  · exact ⟨w, hw.symm⟩
  · cases w with
    | nil =>
      rw [List.append_nil] at hw
      exact ⟨[], by rw [List.append_nil, hw]⟩
    | cons d w =>
      obtain ⟨x, u, rfl⟩ := List.exists_cons_of_ne_nil hu
      cases (List.cons.inj hv).1
      cases (List.cons.inj hw).1
      refine absurd ?_ hc
      rw [(List.cons.inj hw).2]
      exact List.mem_append_right _ List.mem_cons_self

/-- A sign is found in the first place where it stands. -/
theorem cut?_append (hc : c ∉ mark) (h : ¬ (c :: mark) <:+: before) (rest : Text) :
    cut? (c :: mark) (before ++ c :: (mark ++ rest)) = some (before, rest) := by
  have here : after? (c :: mark) (c :: (mark ++ rest)) = some rest :=
    Lexer.after?_eq_some_iff.2 rfl
  induction before with
  | nil => simp only [List.nil_append, cut?, here]
  | cons x before ih =>
    have absent : after? (c :: mark) (x :: (before ++ c :: (mark ++ rest))) = none := by
      rw [Option.eq_none_iff_forall_ne_some]
      intro r hr
      exact h (prefix_of_append hc (List.cons_ne_nil x before)
        ⟨r, (Lexer.after?_eq_some_iff.1 hr).symm⟩).isInfix
    simp only [List.cons_append, cut?, absent]
    rw [ih fun hb => h (hb.trans (List.suffix_cons x before).isInfix)]
    rfl

end Text

namespace Import

variable {source before tag inner after t : Text} {read : Text → Option Xml.Element} {i : Import}

/-! ## 2. The place of the body -/

/-- What begins like the opening tag of a body. -/
def bodySign (d : Char) : Text :=
  "<body" ++ [d]

/-- A body as it is looked for: nothing before its tag begins like one, the tag goes on
to its first angle bracket, and no closing tag of a body is in what follows. -/
structure Framed (before tag inner : Text) : Prop where
  first : ∀ d, endsName d = true → ¬ bodySign d <:+: before
  opens : ∃ d, endsName d = true ∧ bodySign d <+: tag
  closes : ∃ inTag, tag = inTag ++ ['>'] ∧ '>' ∉ inTag
  content : ¬ "</body>".toList <:+: inner

theorem not_mem_bodySign {d : Char} (hd : endsName d = true) : '<' ∉ "body".toList ++ [d] := by
  intro hm
  rcases List.mem_append.1 hm with hm | hm
  · revert hm
    decide
  · cases List.mem_singleton.1 hm
    revert hd
    decide

/-- One step of the search: a place that does not begin like the tag is passed over. -/
theorem beforeBody?_cons {c : Char} (h : ∀ d, endsName d = true → ¬ bodySign d <+: c :: t) :
    beforeBody? (c :: t) = (beforeBody? t).map fun (before, rest) => (c :: before, rest) := by
  rw [beforeBody?]
  split
  · next d rest hd =>
    rw [if_neg]
    intro he
    refine h d he ⟨rest, ?_⟩
    rw [Lexer.after?_eq_some_iff.1 hd, bodySign, List.append_assoc]
    rfl
  · rfl

theorem beforeBody?_bodySign {d : Char} (hd : endsName d = true) (rest : Text) :
    beforeBody? (bodySign d ++ rest) = some ([], bodySign d ++ rest) := by
  have found : Text.after? "<body" (bodySign d ++ rest) = some (d :: rest) :=
    Lexer.after?_eq_some_iff.2 (by rw [bodySign, List.append_assoc]; rfl)
  show beforeBody? ('<' :: ("body".toList ++ [d] ++ rest)) = _
  unfold beforeBody?
  dsimp only
  change Text.after? "<body" ('<' :: ("body".toList ++ [d] ++ rest)) = _ at found
  rw [found]
  exact if_pos hd

theorem beforeBody?_append {d : Char} (hd : endsName d = true)
    (hb : ∀ d, endsName d = true → ¬ bodySign d <:+: before) (rest : Text) :
    beforeBody? (before ++ (bodySign d ++ rest)) = some (before, bodySign d ++ rest) := by
  induction before with
  | nil => exact beforeBody?_bodySign hd rest
  | cons c before ih =>
    have passed : ∀ e, endsName e = true → ¬ bodySign e <+: c :: (before ++ (bodySign d ++ rest)) :=
      fun e he hp => hb e he
        (Text.prefix_of_append (not_mem_bodySign he) (List.cons_ne_nil c before) hp).isInfix
    rw [List.cons_append, beforeBody?_cons passed,
      ih fun e he hi => hb e he (hi.trans (List.suffix_cons c before).isInfix)]
    rfl

/-- What is found around a body that stands in its place. -/
theorem sections_of_framed (h : Framed before tag inner) (after fallback : Text) :
    sections (before ++ tag ++ inner ++ "</body>" ++ after) fallback = ⟨before, tag, after⟩ := by
  obtain ⟨d, hd, more, rfl⟩ := h.opens
  obtain ⟨inTag, htag, hin⟩ := h.closes
  have place : before ++ (bodySign d ++ more) ++ inner ++ "</body>".toList ++ after
      = before ++ (bodySign d ++ (more ++ (inner ++ ("</body>".toList ++ after)))) := by
    simp only [List.append_assoc]
  have whole : bodySign d ++ (more ++ (inner ++ ("</body>".toList ++ after)))
      = inTag ++ '>' :: (inner ++ ("</body>".toList ++ after)) := by
    rw [← List.append_assoc, htag, List.append_assoc]
    rfl
  have close : Text.cut? "</body>" (inner ++ ("</body>".toList ++ after)) = some (inner, after) :=
    Text.cut?_append (by decide) h.content after
  unfold sections
  rw [place, beforeBody?_append hd h.first]
  simp only [Option.bind_eq_bind, Option.bind_some, whole, Lexer.upTo?_append hin, close, htag,
    Option.getD_some]

/-! ## 3. Documents -/

/-- An import has a body that was found in the tree of its source. -/
theorem exists_body (h : ofText source read = .ok i) :
    ∃ root body, read source = some root ∧ bodyOf? root = some body
      ∧ i = ofBody source body := by
  unfold ofText at h
  split at h
  · cases h
  · next root hr =>
    split at h
    · cases h
    · cases h
    · next body _ hb => exact ⟨root, body, hr, hb, (Except.ok.inj h).symm⟩

theorem dsl_eq_toText (h : ofText source read = .ok i) :
    i.dsl = Segment.toText i.manifest.segments := by
  obtain ⟨_, _, -, -, rfl⟩ := exists_body h
  rfl

theorem nodup_ids (h : ofText source read = .ok i) :
    (i.manifest.segments.map Segment.id).Nodup := by
  obtain ⟨_, body, -, -, rfl⟩ := exists_body h
  exact nodup_segments body

/-- Without a change, the segments come out as they stand. -/
theorem edited_dsl (h : ofText source read = .ok i) (s : Settings) (a : Apparatus) :
    i.manifest.edited i.dsl s a
      = i.manifest.document (i.manifest.segments.flatMap Segment.serialize) := by
  rw [Manifest.edited, Patch.compute_unedited (by rw [dsl_eq_toText h]),
    Patch.reconstruct_keeps s a (nodup_ids h)]

/-- **A document that was not edited comes out as it was** if and only if its segments
write what stands in its body, where the body stands in the place it is looked for. -/
theorem edited_eq_source_iff (h : ofText source read = .ok i)
    (hs : source = before ++ tag ++ inner ++ "</body>" ++ after) (hf : Framed before tag inner)
    (s : Settings) (a : Apparatus) :
    i.manifest.edited i.dsl s a = source
      ↔ inner = i.manifest.segments.flatMap Segment.serialize := by
  have around : i.manifest.preamble = before ∧ i.manifest.bodyOpenTag = tag
      ∧ i.manifest.postamble = after := by
    obtain ⟨_, body, -, -, rfl⟩ := exists_body h
    have found := sections_of_framed hf after body.tag.opening
    rw [← hs] at found
    simp [ofBody, found]
  obtain ⟨hb, ht, ha⟩ := around
  rw [edited_dsl h, Manifest.document, hb, ht, ha, hs]
  constructor
  · intro he
    exact (List.append_cancel_left (List.append_cancel_right (List.append_cancel_right he))).symm
  · rintro rfl
    rfl

/-- A body with an attribute, two words and blanks between them. -/
theorem edited_eq_source_two_words :
    let source : Text := "<TEI><text><body n=\"1\"><w>a</w> <w>b</w>.</body></text></TEI>"
    ∃ i, ofText source = .ok i
      ∧ ∀ (s : Settings) (a : Apparatus), i.manifest.edited i.dsl s a = source := by
  intro source
  let i : Import :=
    { dsl := "a b."
      manifest :=
        { segments := [.word 0 "<w>a</w>" "a" [] false, .whitespace 1 " ",
            .word 2 "<w>b</w>" "b" [] false, .word 3 "." "." [] false]
          isMultilevel := false
          preamble := "<TEI><text>"
          bodyOpenTag := "<body n=\"1\">"
          postamble := "</text></TEI>" }
      bodyXml := "<body n=\"1\"><w>a</w> <w>b</w>.</body>" }
  have imported : ofText source = .ok i := by decide +kernel
  have noBody : ¬ "<body".toList <:+: "<TEI><text>".toList := by decide +kernel
  have framed : Framed "<TEI><text>" "<body n=\"1\">" "<w>a</w> <w>b</w>." :=
    { first := fun d _ hi => noBody ((List.prefix_append _ [d]).isInfix.trans hi)
      opens := ⟨' ', rfl, by decide⟩
      closes := ⟨"<body n=\"1\"", by decide, by decide⟩
      content := by decide +kernel }
  exact ⟨i, imported, fun s a =>
    (@edited_eq_source_iff source _ _ _ "</text></TEI>" _ i imported (by decide) framed s a).2
      (by decide)⟩

/-- A comment before the body that holds an opening tag: the segments write what stands in
the body, and all the same the rest of the comment and the tag of the body are lost. -/
theorem edited_after_comment :
    let source : Text := "<TEI><!-- <body> --><text><body><w>a</w></body></text></TEI>"
    ∃ i, ofText source = .ok i
      ∧ source = "<TEI><!-- <body> --><text>".toList ++ "<body>"
          ++ i.manifest.segments.flatMap Segment.serialize ++ "</body>" ++ "</text></TEI>"
      ∧ ∀ (s : Settings) (a : Apparatus),
          i.manifest.edited i.dsl s a = "<TEI><!-- <body><w>a</w></body></text></TEI>".toList
            ∧ i.manifest.edited i.dsl s a ≠ source := by
  intro source
  let i : Import :=
    { dsl := "a"
      manifest :=
        { segments := [.word 0 "<w>a</w>" "a" [] false]
          isMultilevel := false
          preamble := "<TEI><!-- "
          bodyOpenTag := "<body>"
          postamble := "</text></TEI>" }
      bodyXml := "<body><w>a</w></body>" }
  have imported : ofText source = .ok i := by decide +kernel
  refine ⟨i, imported, by decide, fun s a => ?_⟩
  rw [edited_dsl imported]
  decide

end Import

end Transcription
