/-
Transcription.Proofs.OrderlyContent — the content of an element as text that can be read.

Content becomes text by rules that put constructs inside of one another, and the lexer
reads it by rules of its own. They agree on texts in which every bracket belongs to a
construct (`Lexer.Closed`). Two things keep them apart, and are asked of the content
(`orderly`). Brackets in its text are not those of a construct. And the reading of a gap
ends at the first angle bracket, so that in what is supplied right after a gap nothing may
be written with angle brackets again (`unangled`).

What is read is also told apart from its surroundings (`Lexer.Guarded`) where no text in it
is an end of the name of an abbreviation, or ends in it, or else there are no gaps
(`apart`).

**`carries_closed`** and **`carries_guarded`**: both properties go through all rules.
-/
import Transcription.Proofs.CarriedText

namespace Transcription

open Lexer (Bare Closed Guarded Unnamed Completes bare_append bare_nil bare_of_check closed_nil
  squeezed)

/-! ## 1. Texts without brackets -/

namespace Lexer

variable {t u : Text}

instance : DecidablePred Bare :=
  fun _ => decidable_of_iff _
    ⟨bare_of_check, fun h => List.all_eq_true.2 fun c hc => decide_eq_true (h c hc)⟩

/-- Blanks are no brackets. -/
theorem Bare.congr (h : Bare t) (hs : squeezed u = squeezed t) : Bare u := by
  intro c hc
  by_cases hb : isBlank c = true
  · exact noBracket_of_isBlank hb
  · have kept : c ∈ squeezed u := List.mem_filter.2 ⟨hc, by simpa using hb⟩
    exact h c (squeezed_subset (hs ▸ kept))

theorem Bare.not_angle (h : Bare t) : '>' ∉ t :=
  h.not_mem (.inr (by decide))

end Lexer

namespace Import

open Xml (Tag hasElements)

/-! ## 2. Orderly documents -/

mutual

/-- Whether a check passes for all nodes inside of a node. -/
def passes (check : Xml.Node → List Xml.Node → Bool) : Xml.Node → Bool
  | .element _ ns => passesAll check ns
  | _ => true

/-- Whether a check passes for nodes and all nodes inside of them, each looked at with the
nodes right after it. -/
def passesAll (check : Xml.Node → List Xml.Node → Bool) : List Xml.Node → Bool
  | [] => true
  | n :: ns => check n ns && passes check n && passesAll check ns

end

/-- Whether a node is a gap and supplied text comes right after it. -/
def takesReading : Xml.Node → List Xml.Node → Bool
  | .element tag _, .element next _ :: _ =>
      tag.localName = ("gap" : Text) && next.localName = ("supplied" : Text)
  | _, _ => false

/-- Whether a node may be written with angle brackets: supplied text without elements, or a
gap with a reading. -/
def angled (n : Xml.Node) (ns : List Xml.Node) : Bool :=
  takesReading n ns
    || match n with
      | .element tag inner => tag.localName = ("supplied" : Text) && !hasElements inner
      | _ => false

/-- Whether nothing among some nodes, or inside of them, is written with angle brackets. -/
def unangled (ns : List Xml.Node) : Bool :=
  passesAll (fun n ns => !angled n ns) ns

/-- Whether a node is a gap and what comes after it a reading with angle brackets in it. -/
def opensAngled : Xml.Node → List Xml.Node → Bool
  | .element tag _, .element next inner :: _ =>
      tag.localName = ("gap" : Text) && next.localName = ("supplied" : Text) && !unangled inner
  | _, _ => false

/-- Whether the label of a break, if this is one, has no brackets. -/
def plainLabel (tag : Tag) : Bool :=
  if tag.localName = ("lb" : Text) ∨ tag.localName = ("pb" : Text) then
    (tag.value? "n").all (fun t => Bare t) && (tag.values.get? "n").all fun t => Bare t
  else true

mutual

/-- Whether a node has no brackets in its text, and no gap with a reading that has angle
brackets inside an element that is one segment. -/
def orderly (inside : Bool) : Xml.Node → Bool
  | .text t => Bare t
  | .reference name => Bare name
  | .element tag ns =>
      plainLabel tag && orderlyAll (inside || (elementDraft? tag ns).isSome) ns
  | _ => true

/-- Whether nodes are orderly, one after the other. -/
def orderlyAll (inside : Bool) : List Xml.Node → Bool
  | [] => true
  | n :: ns => !(inside && opensAngled n ns) && orderly inside n && orderlyAll inside ns

end

/-- Whether a node is kept apart from the name of an abbreviation: it is no gap where there
are none, or else its text is not an end of the name and does not end in it, and neither
does the label of a page. -/
def apart (gaps : Bool) : Xml.Node → List Xml.Node → Bool
  | .text t, _ => !(gaps && Completes t)
  | .element tag _, _ =>
      if tag.localName = ("gap" : Text) then gaps
      else !(gaps && tag.localName = ("pb" : Text))
        || (tag.values.get? "n").all fun t => Unnamed t
  | _, _ => true

section Orderly

variable {check : Xml.Node → List Xml.Node → Bool} {n : Xml.Node} {ns ms : List Xml.Node}
  {tag : Tag} {inside gaps : Bool}

/-- A check that passes for nodes passes for the first with those after it, inside of the
first, and for the rest. -/
theorem passesAll_cons : passesAll check (n :: ns) = true
    ↔ check n ns = true ∧ passes check n = true ∧ passesAll check ns = true := by
  rw [passesAll, Bool.and_eq_true, Bool.and_eq_true, and_assoc]

theorem passes_element : passes check (.element tag ns) = true ↔ passesAll check ns = true := by
  rw [passes]

/-- A gap is asked for a plain reading only inside an element that is one segment. -/
theorem orderlyAll_cons : orderlyAll inside (n :: ns) = true
    ↔ (inside = true → opensAngled n ns = false) ∧ orderly inside n = true
      ∧ orderlyAll inside ns = true := by
  cases inside <;> simp [orderlyAll, and_assoc]

theorem orderly_text {t : Text} : orderly inside (.text t) = true ↔ Bare t := by
  rw [orderly, decide_eq_true_iff]

theorem orderly_reference {name : Text} : orderly inside (.reference name) = true ↔ Bare name := by
  rw [orderly, decide_eq_true_iff]

theorem orderly_element : orderly inside (.element tag ns) = true
    ↔ plainLabel tag = true ∧ orderlyAll (inside || (elementDraft? tag ns).isSome) ns = true := by
  rw [orderly, Bool.and_eq_true]

/-- The label of a break has no brackets, be it its own or the one that is declared for it. -/
theorem bare_label (h : plainLabel tag = true)
    (hn : tag.localName = ("lb" : Text) ∨ tag.localName = ("pb" : Text)) :
    (∀ t ∈ tag.value? "n", Bare t) ∧ ∀ t ∈ tag.values.get? "n", Bare t := by
  rw [plainLabel, if_pos hn, Bool.and_eq_true] at h
  simpa only [Option.all_eq_true, decide_eq_true_eq, Option.mem_def] using h

/-- Without elements there are no gaps, and no angle brackets. -/
theorem orderlyAll_of_hasElements (hs : hasElements ns = false) (h : orderlyAll inside ns = true) :
    orderlyAll true ns = true ∧ unangled ns = true := by
  induction ns with
  | nil => exact ⟨rfl, rfl⟩
  | cons n ns ih =>
    obtain ⟨-, here, rest⟩ := orderlyAll_cons.1 h
    cases n with
    | element tag children => simp [hasElements, Xml.elements] at hs
    | text _ | reference _ | comment _ | instruction =>
      obtain ⟨inner, plain⟩ := ih hs rest
      exact ⟨orderlyAll_cons.2 ⟨fun _ => rfl, here, inner⟩, passesAll_cons.2 ⟨rfl, rfl, plain⟩⟩

theorem apart_gap (h : apart gaps (.element tag ns) ms = true)
    (hg : tag.localName = ("gap" : Text)) : gaps = true := by
  rwa [apart, if_pos hg] at h

/-- Where there are gaps, the label of a page does not end in the name of an abbreviation. -/
theorem apart_page (h : apart gaps (.element tag ns) ms = true)
    (hn : tag.localName = ("pb" : Text)) :
    gaps = true → ∀ t ∈ tag.values.get? "n", Unnamed t := by
  have other : tag.localName ≠ ("gap" : Text) := hn ▸ by decide
  rintro rfl
  simpa [apart, if_neg other, hn, Option.all_eq_true] using h

theorem apart_text {t : Text} (h : apart gaps (.text t) ms = true) :
    gaps = true → ¬ Completes t := by
  rintro rfl
  simpa [apart] using h

end Orderly

/-! ## 3. Closed texts -/

/-- Closed text, without a closing angle bracket where it has to be plain. -/
structure Fits (plain : Bool) (t : Text) : Prop where
  closed : Closed t
  plain : plain = true → '>' ∉ t

/-- Orderly content, with nothing in angle brackets where its text has to be plain. -/
structure Orderly (inside plain : Bool) (ns : List Xml.Node) : Prop where
  orderly : orderlyAll inside ns = true
  plain : plain = true → unangled ns = true

section Closed

variable {inside plain : Bool} {t u : Text} {tag : Tag} {ns ms : List Xml.Node}

theorem Orderly.text (h : Orderly inside plain (.text t :: ns)) : Bare t :=
  orderly_text.1 (orderlyAll_cons.1 h.orderly).2.1

theorem Orderly.reference (h : Orderly inside plain (.reference t :: ns)) : Bare t :=
  orderly_reference.1 (orderlyAll_cons.1 h.orderly).2.1

/-- What stands in an element is orderly, and the label of a break has no brackets. -/
theorem Orderly.element (h : Orderly inside plain (.element tag ns :: ms)) :
    plainLabel tag = true ∧ orderlyAll (inside || (elementDraft? tag ns).isSome) ns = true :=
  orderly_element.1 (orderlyAll_cons.1 h.orderly).2.1

theorem fits_bare (h : Bare t) : Fits plain t :=
  ⟨h.closed, fun _ => h.not_angle⟩

/-- Text that may stand outside of angle brackets has only to be closed. -/
theorem fits_closed (h : Closed t) : Fits false t :=
  ⟨h, fun hp => absurd hp Bool.false_ne_true⟩

/-- Closed texts stay closed, and plain ones plain, one after the other. -/
theorem Fits.append (ht : Fits plain t) (hu : Fits plain u) : Fits plain (t ++ u) :=
  ⟨ht.closed.append hu.closed,
    fun hp hm => (List.mem_append.1 hm).elim (ht.plain hp) (hu.plain hp)⟩

theorem Fits.trim (h : Fits plain t) : Fits plain t.trim := by
  refine ⟨h.closed.trim, fun hp => ?_⟩
  exact Lexer.holds_trim (P := fun t => '>' ∉ t) (fun _ _ _ => List.not_mem_of_not_mem_cons)
    (fun _ _ _ h hm => h (List.mem_append_left _ hm)) (h.plain hp)

theorem fits_reference {name : Text} (h : Bare name) :
    Fits plain (':' :: name ++ [':']) ∧ Fits plain (Markup.reference name) := by
  have between (first last : Text) (hf : Bare first) (hl : Bare last) :
      Bare (first ++ name ++ last) := bare_append.2 ⟨bare_append.2 ⟨hf, h⟩, hl⟩
  exact ⟨fits_bare (between [':'] [':'] (bare_of_check rfl) (bare_of_check rfl)),
    fits_bare (between ['&'] [';'] (bare_of_check rfl) (bare_of_check rfl))⟩

/-- An abbreviation is written with square brackets and braces alone. -/
theorem fits_abbreviation (ht : Fits plain t) (hu : Fits plain u) :
    Fits plain (abbreviationText t u) := by
  unfold abbreviationText
  exact ⟨Lexer.closed_abbreviation ht.closed hu.closed, fun hp => by
    simp [ht.plain hp, hu.plain hp]⟩

theorem fits_block (kind : BlockKind) (h : Fits plain t) : Fits plain (blockText kind t) := by
  have opening : '>' ∉ kind.opening := by cases kind <;> decide
  unfold blockText
  exact ⟨Lexer.closed_block kind h.closed, fun hp => by simp [opening, h.plain hp]⟩

/-- Supplied text is left out: its mark is the one that is written with angle brackets. -/
theorem fits_marked (mark : Mark) (hm : mark ≠ .supplied) (h : Fits plain t) :
    Fits plain (mark.opening ++ t ++ mark.closing) := by
  refine ⟨Lexer.closed_marked mark h.closed fun he => absurd he hm, fun hp => ?_⟩
  have signs : '>' ∉ mark.opening ∧ '>' ∉ mark.closing := by
    cases mark <;> first | exact absurd rfl hm | decide
  simp [signs, h.plain hp]

/-- A break is written without angle brackets if its label has none. -/
theorem fits_break (kind : BreakKind) {label : Option Text} (hl : ∀ t ∈ label, Bare t)
    (inWord : Bool) : Fits plain (kind.write label inWord) := by
  refine ⟨Lexer.closed_break kind hl inWord, fun _ => ?_⟩
  have bare : '>' ∉ label.getD [] := by
    cases label with
    | none => exact List.not_mem_nil
    | some t => exact (hl t rfl).not_angle
  have sign : '>' ∉ if inWord then '~' :: kind.sign else kind.sign := by
    cases kind <;> cases inWord <;> decide
  unfold BreakKind.write
  dsimp only
  split
  · exact sign
  · split
    · simp [sign, bare]
    · simp [sign, bare]

/-- A gap with a reading is written with angle brackets, and what is read in it may have
none. -/
theorem fits_gapText (tag : Tag) (hr : Fits true t) (hp : plain = true → t = []) :
    Fits plain (gapText tag t) := by
  have digits : ∀ c ∈ ((tag.value? "quantity").getD []).filter Text.isDigit,
      Text.isDigit c = true := fun c hc => (List.mem_filter.1 hc).2
  have bare := Lexer.bare_of_isDigit digits
  unfold gapText
  dsimp only
  split
  · refine ⟨Lexer.closed_gap none digits nofun, fun _ => ?_⟩
    simpa using bare.not_angle
  · next hne =>
    refine ⟨Lexer.closed_gap (some (Text.trim t)) digits ?_, fun h => ?_⟩
    · rintro _ ⟨⟩
      exact ⟨hr.trim.closed, hr.trim.plain rfl⟩
    · exact absurd (hp h ▸ rfl) hne

/-- **Orderly content makes closed text.** -/
theorem carries_closed : Carries Fits Orderly where
  tail h :=
    ⟨(orderlyAll_cons.1 h.orderly).2.2, fun hp => (passesAll_cons.1 (h.plain hp)).2.2⟩
  children h :=
    ⟨h.element.2, fun hp => passes_element.1 (passesAll_cons.1 (h.plain hp)).2.1⟩
  nil := fits_bare bare_nil
  append := Fits.append
  trim := Fits.trim
  blank hc := fits_bare (List.forall_mem_singleton.2 (Lexer.noBracket_of_isBlank hc))
  text h hs := fits_bare (h.text.congr hs)
  reference h := fits_reference h.reference
  abbreviation := fits_abbreviation
  block := fits_block
  marked := fits_marked
  lineBreak h hn := by
    obtain ⟨value, own⟩ := bare_label h.element.1 (.inl hn)
    exact ⟨fits_break .line value true, fits_break .line own false⟩
  pageBreak h hn := fits_break .page (bare_label h.element.1 (.inr hn)).2 false
  supplied h hn hs := by
    obtain ⟨inside, plain⟩ := orderlyAll_of_hasElements hs h.element.2
    refine ⟨Bool.eq_false_iff.2 fun hp => ?_, inside, fun _ => plain⟩
    simpa [angled, hn, hs] using (passesAll_cons.1 (h.plain hp)).1
  angled h := fits_closed (Lexer.closed_marked .supplied h.closed fun _ => h.plain rfl)
  gap _ _ := fits_gapText _ (fits_bare bare_nil) fun _ => rfl
  reading h hg hs := by
    obtain ⟨told, -, after⟩ := orderlyAll_cons.1 h.orderly
    refine ⟨Bool.eq_false_iff.2 fun hp => ?_, ⟨?_, fun _ => ?_⟩,
      fun t ht => fits_gapText _ ht fun hp => absurd hp Bool.false_ne_true⟩
    · simpa [angled, takesReading, hg, hs] using (passesAll_cons.1 (h.plain hp)).1
    · exact (orderly_element.1 (orderlyAll_cons.1 after).2.1).2
    · simpa [opensAngled, hg, hs] using told rfl

end Closed

/-! ## 4. Texts told apart from names -/

/-- Closed text whose brackets are told apart wherever it stands. -/
structure FitsApart (gaps plain : Bool) (t : Text) : Prop extends Fits plain t where
  guarded : Guarded gaps t

/-- Orderly content that is kept apart from the name of an abbreviation. -/
structure OrderlyApart (gaps inside plain : Bool) (ns : List Xml.Node) : Prop
    extends Orderly inside plain ns where
  apart : passesAll (apart gaps) ns = true

section Apart

variable {gaps inside plain : Bool} {t name : Text} {tag : Tag} {n : Xml.Node}
  {ns ms : List Xml.Node}

theorem OrderlyApart.first (h : OrderlyApart gaps inside plain (n :: ns)) :
    Import.apart gaps n ns = true :=
  (passesAll_cons.1 h.apart).1

theorem OrderlyApart.inner (h : OrderlyApart gaps inside plain (.element tag ns :: ms)) :
    passesAll (Import.apart gaps) ns = true :=
  passes_element.1 (passesAll_cons.1 h.apart).2.1

theorem OrderlyApart.tail (h : OrderlyApart gaps inside plain (n :: ns)) :
    OrderlyApart gaps inside plain ns :=
  ⟨carries_closed.tail h.toOrderly, (passesAll_cons.1 h.apart).2.2⟩

/-- A name between two signs. -/
theorem guarded_between (first : Text) (last : Char) (hn : Bare name)
    (hf : '[' ∉ first ∧ '[' ≠ last) (hl : isBlank last = false ∧ last ∉ Lexer.abbreviationName) :
    Guarded gaps (first ++ name ++ [last]) := by
  have bracket : '[' ∉ name := hn.not_mem (.inl (by decide))
  exact Lexer.guarded_behind (by simp [hf, bracket]) hl.1 hl.2 fun _ => Lexer.unnamed_nil

/-- A gap keeps what its reading keeps; its own signs are points, digits and brackets. -/
theorem guarded_gapText (tag : Tag) (h : Guarded true t) : Guarded true (gapText tag t) := by
  have digits : ∀ c ∈ ((tag.value? "quantity").getD []).filter Text.isDigit,
      Text.isDigit c = true := fun c hc => (List.mem_filter.1 hc).2
  unfold gapText
  dsimp only
  split
  · exact Lexer.guarded_gap none digits nofun
  · refine Lexer.guarded_gap (some (Text.trim t)) digits ?_
    rintro _ ⟨⟩
    exact h.trim

/-- A label without braces ends the text of a break, and may be anything where it is that of
a page. -/
theorem guarded_break (kind : BreakKind) {label : Option Text} (hl : ∀ t ∈ label, Bare t)
    (inWord : Bool) (hn : gaps = true → kind = .page → ∀ t ∈ label, Unnamed t) :
    Guarded gaps (kind.write label inWord) := by
  have bare : Bare (label.getD []) := by
    cases label with
    | none => exact bare_nil
    | some t => exact hl t rfl
  have unnamed : gaps = true → kind = .page → Unnamed (label.getD []) := fun hg hk => by
    cases label with
    | none => exact Lexer.unnamed_nil
    | some t => exact hn hg hk t rfl
  have bracket : '[' ∉ label.getD [] := bare.not_mem (.inl (by decide))
  have behind (strokes : Text) (hs : '[' ∉ strokes) (hg : gaps = true → Unnamed (label.getD [])) :
      Guarded gaps (strokes ++ '/' :: label.getD []) :=
    Lexer.guarded_behind (by simp [hs, bracket]) (by decide) (by decide) hg
  unfold BreakKind.write
  dsimp only
  split
  · cases kind <;> cases inWord <;> exact Lexer.guarded_of_check rfl
  · split
    · next hb =>
      obtain ⟨hw, hb⟩ := Bool.and_eq_true_iff.1 hb
      cases inWord with
      | true => cases hw
      | false =>
        cases kind with
        | line =>
          refine behind ['/'] (by decide) fun _ name => ?_
          have digit := List.all_eq_true.1 hb 'r'
            (Lexer.squeezed_subset (name.subset (by decide)))
          exact absurd digit (by decide)
        | page => exact behind ['/', '/'] (by decide) fun hg => unnamed hg rfl
    · have sign : '[' ∉ (if inWord then '~' :: kind.sign else kind.sign) ++ ['{'] := by
        cases kind <;> cases inWord <;> decide
      have braced : Guarded gaps (_ ++ label.getD [] ++ ['}']) :=
        guarded_between _ '}' bare ⟨sign, by decide⟩ (by decide)
      simpa using braced

/-- **Content kept apart from names makes text in which brackets are told apart.** -/
theorem carries_guarded (gaps : Bool) : Carries (FitsApart gaps) (OrderlyApart gaps) where
  tail h := h.tail
  children h :=
    ⟨carries_closed.children h.toOrderly, h.inner⟩
  nil := ⟨carries_closed.nil, Lexer.guarded_nil⟩
  append ht hu := ⟨ht.toFits.append hu.toFits, ht.guarded.append hu.guarded⟩
  trim h := ⟨h.toFits.trim, h.guarded.trim⟩
  blank hc := by
    have other : ∀ c ∈ ['[', 'r'], isBlank c = false := Text.forall_of_check (by decide)
    refine ⟨carries_closed.blank hc, Lexer.guarded_of_forall fun c hm => ?_⟩
    cases List.mem_singleton.1 hm
    exact ⟨ne_of_isBlank hc (other '[' (by simp)), ne_of_isBlank hc (other 'r' (by simp))⟩
  text h hs := by
    have fits := carries_closed.text h.toOrderly hs
    have bare := h.text.congr hs
    refine ⟨fits, Lexer.guarded_text (bare.not_mem (.inl (by decide))) fun hg => ?_⟩
    rw [Completes, hs]
    exact apart_text h.first hg
  reference h := by
    obtain ⟨colons, entity⟩ := carries_closed.reference h.toOrderly
    have bare := h.reference
    exact ⟨⟨colons, guarded_between [':'] ':' bare (by decide) (by decide)⟩,
      ⟨entity, guarded_between ['&'] ';' bare (by decide) (by decide)⟩⟩
  abbreviation ha he :=
    ⟨fits_abbreviation ha.toFits he.toFits,
      Lexer.guarded_abbreviation ha.guarded he.guarded ha.closed.level he.closed.level⟩
  block kind h := ⟨fits_block kind h.toFits, Lexer.guarded_block kind h.guarded⟩
  marked mark hm h := ⟨fits_marked mark hm h.toFits, Lexer.guarded_marked mark h.guarded⟩
  lineBreak h hn := by
    obtain ⟨value, own⟩ := bare_label h.element.1 (.inl hn)
    obtain ⟨inside, outside⟩ := carries_closed.lineBreak h.toOrderly hn
    exact ⟨⟨inside, guarded_break .line value true nofun⟩,
      ⟨outside, guarded_break .line own false nofun⟩⟩
  pageBreak h hn := by
    refine ⟨carries_closed.pageBreak h.toOrderly hn, ?_⟩
    exact guarded_break .page (bare_label h.element.1 (.inr hn)).2 false fun hg _ =>
      apart_page h.first hn hg
  supplied h hn hs := by
    obtain ⟨plain, orderly⟩ := carries_closed.supplied h.toOrderly hn hs
    exact ⟨plain, orderly, h.inner⟩
  angled h := ⟨carries_closed.angled h.toFits, Lexer.guarded_marked .supplied h.guarded⟩
  gap h hg := by
    obtain rfl := apart_gap h.first hg
    exact ⟨carries_closed.gap h.toOrderly hg, guarded_gapText _ Lexer.guarded_nil⟩
  reading h hg hs := by
    obtain rfl := apart_gap h.first hg
    obtain ⟨plain, orderly, angled⟩ := carries_closed.reading h.toOrderly hg hs
    exact ⟨plain, ⟨orderly, h.tail.inner⟩,
      fun t ht => ⟨angled t ht.toFits, guarded_gapText _ ht.guarded⟩⟩

end Apart

end Import

end Transcription
