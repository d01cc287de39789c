/-
Transcription.Proofs.Quotes — the references and comments in markup.

Markup is read from left to right: a reference goes from an ampersand up to the next
semicolon, a comment from its opening sign up to the first closing one (`quotes`). Both
may be broken from the outside. The name of a named character is written as it stands, and
so is a source in a comment, but for its five special characters, of which the dash is none.

What the writers of markup leave is `Closed`: it can be read apart from whatever follows it.
For each of them it is told when it is legal (`LegalIff`). Most are `Safe`, legal in any
case; a named character is legal if it stands for something or is spelled as a name, a comment
if there are no two dashes in a row in its source (`legalIff_remark`). Elements around ranges
of characters stand between the pieces of the facsimile and make no difference
(`LegalIff.inject`).
-/
import Transcription.Proofs.RangeElements

namespace Transcription

namespace Text

/-- A mark stands at the first character or further on. -/
theorem holds_cons (mark : Text) (c : Char) (t : Text) :
    holds (c :: t) mark = (startsWith (c :: t) mark || holds t mark) := by
  rw [holds, cut?, startsWith]
  cases after? mark (c :: t) with
  | some rest => rfl
  | none => simp [holds]

/-- Two dashes stand at a dash before another one, or after it. -/
theorem holds_dashes (c : Char) (t : Text) :
    holds (c :: t) "--" = (decide (c = '-' ∧ t.head? = some '-') || holds t "--") := by
  have dashes : ("--" : Text) = ['-', '-'] := rfl
  have first : startsWith (c :: t) "--" = decide (c = '-' ∧ t.head? = some '-') := by
    rw [startsWith, dashes, after?]
    by_cases hc : '-' = c
    · subst hc
      cases t with
      | nil => rfl
      | cons d t =>
        by_cases hd : '-' = d
        · subst hd; rfl
        · simp [after?, hd, Ne.symm hd]
    · simp [hc, Ne.symm hc]
  rw [holds_cons, first]

end Text

open CharacterRange

namespace Markup

/-! ## 1. References and comments -/

/-- What stands between the delimiters of a reference or of a comment. -/
inductive Quote where
  | reference (name : Text)
  | comment (body : Text)
  deriving DecidableEq, Repr

/-- Where a reading stands: outside of references and comments, or inside of one with what has
been read of it. -/
inductive Quoting where
  | outside
  | name (read : Text)
  | body (read : Text)

/-- The references and comments from a place on, in their order. One that nothing closes goes on
up to the end. -/
def quotesFrom : Quoting → Text → List Quote
  | .outside, [] => []
  | .name read, [] => [.reference read]
  | .body read, [] => [.comment read]
  | .outside, '&' :: t => quotesFrom (.name []) t
  | .outside, '<' :: '!' :: '-' :: '-' :: t => quotesFrom (.body []) t
  | .outside, _ :: t => quotesFrom .outside t
  | .name read, ';' :: t => .reference read :: quotesFrom .outside t
  | .name read, c :: t => quotesFrom (.name (read ++ [c])) t
  | .body read, '-' :: '-' :: '>' :: t => .comment read :: quotesFrom .outside t
  | .body read, c :: t => quotesFrom (.body (read ++ [c])) t

/-- The references and comments in markup. -/
def quotes (t : Text) : List Quote :=
  quotesFrom .outside t

/-- A reference is predefined or to a name, and no comment holds the sign that ends it. -/
def Quote.Legal : Quote → Prop
  | .reference name => name ∈ predefined ∨ isName name = true
  | .comment body => body.holds "--" = false

instance : DecidablePred Quote.Legal
  | .reference name => inferInstanceAs (Decidable (name ∈ predefined ∨ isName name = true))
  | .comment body => inferInstanceAs (Decidable (body.holds "--" = false))

/-- All references and comments in markup are legal. -/
def Legal (t : Text) : Prop :=
  ∀ q ∈ quotes t, q.Legal

instance : DecidablePred Legal :=
  fun t => inferInstanceAs (Decidable (∀ q ∈ quotes t, q.Legal))

/-- Markup whose references and comments come before those of whatever follows it. -/
def Closed (t : Text) : Prop :=
  ∀ rest, quotes (t ++ rest) = quotes t ++ quotes rest

/-- Closed markup, legal under a condition. -/
structure LegalIff (P : Prop) (t : Text) : Prop where
  closed : Closed t
  legal : Legal t ↔ P

/-- Closed markup that is legal. -/
abbrev Safe (t : Text) : Prop :=
  LegalIff True t

/-! ## 2. Markup that is read apart -/

section Quotes

variable {t u name body : Text} {c : Char} {P Q R : Prop}

/-- Closedness and legality both follow from a list of quotes that no rest changes. -/
theorem LegalIff.of_quotes (qs : List Quote) (h : ∀ rest, quotes (t ++ rest) = qs ++ quotes rest)
    (hq : (∀ q ∈ qs, q.Legal) ↔ P) : LegalIff P t := by
  have alone : quotes t = qs := by
    have whole := h []
    have none : quotes [] = [] := rfl
    rwa [List.append_nil, none, List.append_nil] at whole
  exact ⟨fun rest => by rw [h, alone], by rw [Legal, alone, hq]⟩

theorem LegalIff.congr (h : LegalIff P t) (e : P ↔ Q) : LegalIff Q t :=
  ⟨h.closed, h.legal.trans e⟩

/-- Closed markup is legal side by side if each of the two is. -/
theorem LegalIff.append (ht : LegalIff P t) (hu : LegalIff Q u) : LegalIff (P ∧ Q) (t ++ u) := by
  have cut := ht.closed u
  refine ⟨fun rest => ?_, ?_⟩
  · rw [List.append_assoc, ht.closed, hu.closed, cut, List.append_assoc]
  · rw [Legal, cut, List.forall_mem_append]
    exact and_congr ht.legal hu.legal

/-- Safe markup before makes no difference. -/
theorem LegalIff.after (hu : LegalIff P u) (ht : Safe t) : LegalIff P (t ++ u) :=
  (ht.append hu).congr (iff_of_eq (true_and _))

/-- Safe markup behind makes no difference. -/
theorem LegalIff.before (ht : LegalIff P t) (hu : Safe u) : LegalIff P (t ++ u) :=
  (ht.append hu).congr (iff_of_eq (and_true _))

theorem safe_nil : Safe [] :=
  .of_quotes [] (fun _ => rfl) (iff_true_intro nofun)

theorem LegalIff.flatMap {α : Type} {f : α → Text} {P : α → Prop} {as : List α}
    (h : ∀ a ∈ as, LegalIff (P a) (f a)) : LegalIff (∀ a ∈ as, P a) (as.flatMap f) := by
  induction as with
  | nil => exact safe_nil.congr (by simp)
  | cons a as ih =>
    obtain ⟨ha, has⟩ := List.forall_mem_cons.1 h
    exact (ha.append (ih has)).congr List.forall_mem_cons.symm

theorem Safe.flatMap {α : Type} {f : α → Text} {as : List α} (h : ∀ a ∈ as, Safe (f a)) :
    Safe (as.flatMap f) :=
  (LegalIff.flatMap h).congr (by simp)

/-- Markup that opens no reference and no comment, and after which none is half open. -/
def isSilent : Text → Bool
  | [] => true
  | '&' :: _ => false
  | ['<'] => false
  | '<' :: '!' :: _ => false
  | _ :: t => isSilent t

/-- Whatever follows is read as if the silent markup were not there. -/
theorem quotes_silent (h : isSilent t = true) (rest : Text) : quotes (t ++ rest) = quotes rest := by
  fun_induction isSilent t with
  | case1 => rfl
  | case2 | case3 | case4 => cases h
  | case5 c t amp single bang ih =>
    have passes : quotes (c :: (t ++ rest)) = quotes (t ++ rest) := by
      refine quotesFrom.eq_6 c (t ++ rest) amp fun more less he => ?_
      cases t with
      | nil => exact single less rfl
      | cons d t => exact bang t less (by rw [(List.cons.inj he).1])
    rw [List.cons_append, passes, ih h]

theorem safe_silent (h : isSilent t = true) : Safe t :=
  .of_quotes [] (quotes_silent h) (iff_true_intro nofun)

theorem isSilent_cons (less : c ≠ '<') (amp : c ≠ '&') (t : Text) :
    isSilent (c :: t) = isSilent t :=
  isSilent.eq_5 c t amp (fun h _ => less h) fun _ h _ => less h

/-- Text without the two opening signs is silent. -/
theorem isSilent_text (h : ∀ c ∈ t, c ≠ '<' ∧ c ≠ '&') : isSilent t = true := by
  induction t with
  | nil => rfl
  | cons c t ih =>
    obtain ⟨⟨less, amp⟩, ht⟩ := List.forall_mem_cons.1 h
    rw [isSilent_cons less amp, ih ht]

/-- A reference goes on to the first semicolon. -/
theorem quotesFrom_name (h : ';' ∉ name) (read rest : Text) :
    quotesFrom (.name read) (name ++ ';' :: rest)
      = .reference (read ++ name) :: quotes rest := by
  induction name generalizing read with
  | nil => rw [List.nil_append, List.append_nil]; rfl
  | cons c name ih =>
    obtain ⟨hc, hn⟩ := not_or.1 fun hm => h (List.mem_cons.2 hm)
    rw [List.cons_append, quotesFrom.eq_8 _ _ _ (Ne.symm hc), ih hn, List.append_assoc,
      List.singleton_append]

/-- A comment ends where the first angle bracket is closed after two dashes. -/
theorem quotesFrom_body (h : '>' ∉ body) (read rest : Text) :
    quotesFrom (.body read) (body ++ '-' :: '-' :: '>' :: rest)
      = .comment (read ++ body) :: quotes rest := by
  induction body generalizing read with
  | nil => rw [List.nil_append, List.append_nil]; rfl
  | cons c body ih =>
    obtain ⟨-, hb⟩ := not_or.1 fun hm => h (List.mem_cons.2 hm)
    have goesOn : ∀ more, c = '-' → body ++ '-' :: '-' :: '>' :: rest = '-' :: '>' :: more →
        False := by
      intro more _ he
      match body with
      | [] => cases he
      | [d] => cases he
      | d :: e :: body =>
        obtain ⟨-, he⟩ := List.cons.inj he
        exact hb (by rw [(List.cons.inj he).1]; simp)
    rw [List.cons_append, quotesFrom.eq_10 _ _ _ goesOn, ih hb, List.append_assoc,
      List.singleton_append]

/-- The predefined names are names as well, so that one condition remains. -/
theorem legal_reference_iff (name : Text) : (Quote.reference name).Legal ↔ isName name = true := by
  have names : ∀ name ∈ predefined, isName name = true := by decide
  exact or_iff_right_of_imp (names name)

theorem legalIff_reference (h : ';' ∉ name) : LegalIff (isName name = true) (reference name) := by
  refine .of_quotes [.reference name] (fun rest => ?_) ?_
  · have shape : reference name ++ rest = '&' :: (name ++ ';' :: rest) := by simp [reference]
    rw [shape]
    exact quotesFrom_name h [] rest
  · rw [List.forall_mem_singleton, legal_reference_iff]

/-! ## 3. Escaped text and comments -/

/-- A character is written as it stands or as a predefined reference. -/
theorem safe_escapeChar (c : Char) : Safe (escapeChar c) := by
  have names : ∀ name ∈ predefined, ';' ∉ name ∧ isName name = true := by decide
  rcases escapeChar_cases c with ⟨name, hn, shape, -⟩ | ⟨shape, less, -, -, amp⟩
  · rw [shape]
    exact (legalIff_reference (names name hn).1).congr (iff_true_intro (names name hn).2)
  · rw [shape]
    exact safe_silent (isSilent_text (List.forall_mem_singleton.2 ⟨less, amp⟩))

theorem safe_escape (t : Text) : Safe (escape t) :=
  Safe.flatMap fun c _ => safe_escapeChar c

/-- Two dashes side by side begin in no text without dashes. -/
theorem holds_dashes_skip (h : '-' ∉ t) (u : Text) : (t ++ u).holds "--" = u.holds "--" := by
  induction t with
  | nil => rfl
  | cons c t ih =>
    obtain ⟨hc, ht⟩ := not_or.1 fun hm => h (List.mem_cons.2 hm)
    rw [List.cons_append, Text.holds_dashes, ih ht, decide_eq_false fun both => hc both.1.symm,
      Bool.false_or]

/-- Escaping does not move dashes to the front, nor from it. -/
theorem head?_escape (t rest : Text) (h : rest.head? ≠ some '-') :
    (escape t ++ rest).head? = some '-' ↔ t.head? = some '-' := by
  cases t with
  | nil => exact iff_of_false h nofun
  | cons c t =>
    have step : escape (c :: t) ++ rest = escapeChar c ++ (escape t ++ rest) :=
      List.append_assoc ..
    rw [step]
    rcases escapeChar_cases c with ⟨name, -, shape, other⟩ | ⟨shape, -⟩
    · rw [shape]
      have amp : (reference name ++ (escape t ++ rest)).head? = some '&' := rfl
      rw [amp]
      exact iff_of_false (by decide) fun dash => other (Option.some.inj dash)
    · rw [shape]
      rfl

/-- Escaping brings no dashes together and none apart. -/
theorem holds_dashes_escape (t rest : Text) (hn : rest.holds "--" = false)
    (hh : rest.head? ≠ some '-') : (escape t ++ rest).holds "--" = t.holds "--" := by
  induction t with
  | nil => exact hn
  | cons c t ih =>
    have step : escape (c :: t) ++ rest = escapeChar c ++ (escape t ++ rest) :=
      List.append_assoc ..
    rw [step, Text.holds_dashes c t]
    rcases escapeChar_cases c with ⟨name, known, shape, other⟩ | ⟨shape, -⟩
    · have dashless : ∀ name ∈ predefined, '-' ∉ reference name := by decide
      rw [shape, holds_dashes_skip (dashless name known), ih,
        decide_eq_false fun both => other both.1, Bool.false_or]
    · rw [shape]
      show Text.holds (c :: (escape t ++ rest)) "--" = _
      rw [Text.holds_dashes, ih]
      simp only [head?_escape t rest hh]

/-- A comment about a source is legal unless two dashes stand side by side in the source. -/
theorem legalIff_remark (source : Text) :
    LegalIff (source.holds "--" = false) (remark "parse error" source) := by
  let body : Text := " parse error: " ++ (escape source ++ [' '])
  have closes : '>' ∉ body := by
    intro hm
    rcases List.mem_append.1 hm with hm | hm
    · revert hm; decide
    · rcases List.mem_append.1 hm with hm | hm
      · exact (inert_escape source _ hm).2.1 rfl
      · revert hm; decide
  refine .of_quotes [.comment body] (fun rest => ?_) ?_
  · have parts : remark "parse error" source = '<' :: '!' :: '-' :: '-' ::
        (" parse error: " ++ escape source ++ ' ' :: '-' :: '-' :: '>' :: []) := rfl
    have shape : remark "parse error" source ++ rest
        = '<' :: '!' :: '-' :: '-' :: (body ++ '-' :: '-' :: '>' :: rest) := by
      rw [parts]
      simp only [body, List.append_assoc, List.cons_append, List.nil_append]
    rw [shape]
    exact quotesFrom_body closes [] rest
  · rw [List.forall_mem_singleton]
    show body.holds "--" = false ↔ _
    rw [holds_dashes_skip (by decide), holds_dashes_escape source [' '] (by decide) (by decide)]

end Quotes

/-! ## 4. Tags and elements -/

section Elements

variable {t name tag attrs notes content : Text} {P Q R : Prop} {table : Table Text}

theorem safe_text (h : ∀ c ∈ t, c ≠ '<' ∧ c ≠ '&') : Safe t :=
  safe_silent (isSilent_text h)

theorem plain_of_isName (hn : isName name = true) : ∀ c ∈ name, c ≠ '<' ∧ c ≠ '&' := by
  intro c hc
  have sign := not_mem_of_isName hn c hc
  constructor <;> rintro rfl <;> exact sign (by decide)

/-- No name begins as a comment does. -/
theorem safe_tagName (hn : isName name = true) : Safe ('<' :: name) := by
  cases name with
  | nil => cases hn
  | cons c more =>
    obtain ⟨hc, -⟩ := Bool.and_eq_true_iff.1 hn
    have goesOn : isSilent ('<' :: c :: more) = isSilent (c :: more) :=
      isSilent.eq_5 '<' (c :: more) (by decide) (fun _ => nofun) fun t _ he =>
        (ne_of_beginsName hc).2 (List.cons.inj he).1
    exact safe_silent (goesOn.trans (isSilent_text (plain_of_isName hn)))

/-- A value is escaped, and the name of an attribute is plain text. -/
theorem safe_attr (hn : isName name = true) (value : Text) : Safe (attr name value) :=
  have start : Safe (' ' :: name) :=
    safe_text (List.forall_mem_cons.2 ⟨by decide, plain_of_isName hn⟩)
  ((start.before (safe_silent (by decide))).before (safe_escape value)).before
    (safe_silent (by decide))

theorem safe_attributes (h : Edition.Named table) : Safe (attributes table) :=
  Safe.flatMap fun entry he => safe_attr (h entry he) entry.2

/-- An element with attributes and with what follows it. -/
theorem LegalIff.tagged (hn : isName name = true) (ha : Safe attrs) (hc : LegalIff P content)
    {rest : Text} (hr : Safe rest) :
    LegalIff P ('<' :: name ++ attrs ++ '>' :: content ++ "</" ++ name ++ rest) := by
  have inner : LegalIff P ('>' :: content) := hc.after (safe_silent (t := ['>']) rfl)
  have opened := inner.after ((safe_tagName hn).before ha)
  have ends := opened.before (safe_silent (t := "</") (by decide))
  exact (ends.before (safe_text (plain_of_isName hn))).before hr

/-- Tags around content leave it as legal as it is. -/
theorem LegalIff.wrap (hn : isName name = true) (hc : LegalIff P content) :
    LegalIff P (wrap name content) := by
  have whole := LegalIff.tagged hn safe_nil hc (safe_silent (t := ">") (by decide))
  rwa [List.append_nil] at whole

theorem safe_element (hn : isName name = true) (content : Text) : Safe (element name content) :=
  (safe_escape content).wrap hn

/-- A gap is written with digits at most. -/
theorem safe_gap (quantity : Option Nat) : Safe (gap quantity) := by
  cases quantity with
  | none => exact safe_silent (by decide)
  | some n =>
    have digits : Safe (Text.ofNat n) := safe_text fun c hc => by
      have digit := Text.isDigit_of_ofNat n c hc
      constructor <;> (rintro rfl; revert digit; decide)
    exact ((safe_silent (by decide)).before digits).before (safe_silent (by decide))

theorem safe_labelledBreak (hn : isName name = true) (label : Text) :
    Safe (Edition.labelledBreak name label) :=
  ((safe_tagName hn).before (safe_attr (by decide) label)).before (safe_silent (by decide))

/-- The break of a line or a page, with an escaped label if there is one. -/
theorem safe_fragmentBreak (n : Node) : Safe (Edition.fragmentBreak n) := by
  cases n with
  | pageBreak label => exact safe_labelledBreak (by decide) label
  | lineBreak label =>
    cases label with
    | some label => exact safe_labelledBreak (by decide) label
    | none => exact safe_silent (by decide)
  | _ => exact safe_nil

/-- A remark becomes a note with its text and category escaped, or nothing. -/
theorem safe_noteOf (r : Remark) : Safe (Apparatus.noteOf r) := by
  unfold Apparatus.noteOf
  split
  · next text category _ _ =>
    have attrs : Safe (attributes (Edition.attr? "type" id category)) :=
      safe_attributes (Edition.named_attr? (by decide) id category)
    have opened : Safe ("<note" ++ attributes (Edition.attr? "type" id category)) :=
      (safe_silent (by decide)).before attrs
    have inner : Safe ('>' :: escape text) :=
      (safe_escape text).after (safe_silent (t := ['>']) rfl)
    exact (opened.before inner).before (safe_silent (by decide))
  · exact safe_nil

theorem safe_notes (a : Apparatus) (index : Int) : Safe (a.notes index) :=
  Safe.flatMap fun r _ => safe_noteOf r

/-- A word in its readings is legal as they are. -/
theorem LegalIff.write {r : Readings} (hn : isName tag = true) (ha : Safe attrs)
    (facs : LegalIff P r.facsimile) (dipl : LegalIff Q r.diplomatic)
    (norm : LegalIff R r.normalized) (hnotes : Safe notes) :
    LegalIff ((P ∧ Q) ∧ R) (r.write tag attrs notes) := by
  have toFacs := ((safe_tagName hn).before ha).before
    (safe_silent (t := ">\n  <choice>\n    <me:facs>") (by decide))
  have toDipl := (facs.after toFacs).before
    (safe_silent (t := "</me:facs>\n    <me:dipl>") (by decide))
  have toNorm := (toDipl.append dipl).before
    (safe_silent (t := "</me:dipl>\n    <me:norm>") (by decide))
  have toNotes := (toNorm.append norm).before
    (safe_silent (t := "</me:norm>\n  </choice>") (by decide))
  have toEnd := (toNotes.before hnotes).before (safe_silent (t := "\n</") (by decide))
  exact (toEnd.before (safe_text (plain_of_isName hn))).before (safe_silent (by decide))

end Elements

end Markup

/-! ## 5. Nodes -/

/-- The name of a named character holds no sign that ends a reference. -/
def Node.ClosedName (n : Node) : Prop :=
  ∀ name, n = .entity name → ';' ∉ name

/-- A named character that stands for nothing has a name that markup may refer to. -/
def Node.Referable (letters : Text → Option Text) (n : Node) : Prop :=
  ∀ name, n = .entity name → letters name = none → Markup.isName name = true

namespace Markup

section Nodes

variable {a : Apparatus} {n : Node} {letters : Text → Option Text} {t : Text}

/-- Only a named character asks for anything. -/
theorem safe_referable (ht : Safe t) (h : ∀ name, n ≠ .entity name) :
    LegalIff (n.Referable letters) t :=
  ht.congr ⟨fun _ name he => absurd he (h name), fun _ => trivial⟩

/-- Letters in the place of a named character, or else a reference to it. -/
theorem legalIff_letters {name : Text} (h : ';' ∉ name) (f : Text → Text) :
    LegalIff ((Node.entity name).Referable letters) (match letters name with
      | some t => escape (f t)
      | none => reference name) := by
  have condition : (Node.entity name).Referable letters
      ↔ (letters name = none → isName name = true) :=
    ⟨fun h => h name rfl, fun h _ he => by cases he; exact h⟩
  cases known : letters name with
  | some t =>
    refine (safe_escape (f t)).congr (iff_of_true trivial (condition.2 fun none => ?_))
    rw [known] at none
    cases none
  | none => exact (legalIff_reference h).congr (by rw [condition, known]; simp)

theorem safe_blank : Safe [' '] :=
  safe_silent rfl

/-- The facsimile knows named characters from the dictionary alone. -/
theorem legalIff_facsimileOf (h : n.ClosedName) :
    LegalIff (n.Referable a.reduced) (a.facsimileOf n) := by
  cases n with
  | entity name => exact legalIff_letters (h name rfl) id
  | text content => exact safe_referable (safe_escape content) nofun
  | abbreviation abbr expansion => exact safe_referable (safe_element (by decide) abbr) nofun
  | gap quantity reading => exact safe_referable (safe_gap quantity) nofun
  | marked mark content =>
    refine safe_referable ?_ nofun
    cases mark with
    | supplied => exact safe_nil
    | deletion | addition | note | unclear => exact safe_element (Mark.isName_tag _) content
  | compoundJoin => exact safe_referable safe_blank nofun
  | _ => exact safe_referable safe_nil nofun

/-- The diplomatic level asks the registry after the dictionary. -/
theorem legalIff_diplomaticOf (h : n.ClosedName) :
    LegalIff (n.Referable a.resolved) (a.diplomaticOf n) := by
  cases n with
  | entity name => exact legalIff_letters (h name rfl) id
  | text content => exact safe_referable (safe_escape content) nofun
  | abbreviation abbr expansion => exact safe_referable (safe_element (by decide) expansion) nofun
  | gap quantity reading =>
    refine safe_referable ?_ nofun
    show Safe (Apparatus.gapReading reading)
    unfold Apparatus.gapReading
    split
    · exact safe_nil
    · split
      · exact safe_nil
      · exact safe_element (by decide) _
  | marked mark content => exact safe_referable (safe_element mark.isName_tag content) nofun
  | compoundJoin => exact safe_referable safe_blank nofun
  | _ => exact safe_referable safe_nil nofun

/-- The normalized level looks where the diplomatic one does, and changes what it finds. -/
theorem legalIff_normalizedOf (h : n.ClosedName) :
    LegalIff (n.Referable a.resolved) (a.normalizedOf n) := by
  cases n with
  | entity name => exact legalIff_letters (h name rfl) a.normalize
  | text content => exact safe_referable (safe_escape _) nofun
  | abbreviation abbr expansion => exact safe_referable (safe_element (by decide) _) nofun
  | gap quantity reading =>
    refine safe_referable ?_ nofun
    cases reading with
    | none => exact safe_nil
    | some t =>
      show Safe (if t.isEmpty then [] else element "supplied" (a.normalize t))
      split
      · exact safe_nil
      · exact safe_element (by decide) _
  | marked mark content => exact safe_referable (safe_element mark.isName_tag _) nofun
  | _ => exact safe_referable safe_nil nofun

/-- Where one level is written, the registry alone is asked. -/
theorem legalIff_inline (h : n.ClosedName) :
    LegalIff (n.Referable a.registry.resolve) (Edition.inline a n) := by
  cases n with
  | entity name => exact legalIff_letters (h name rfl) id
  | text content => exact safe_referable (safe_escape content) nofun
  | abbreviation abbr expansion =>
    exact safe_referable (((safe_element (by decide) abbr).before
      (safe_element (by decide) expansion)).wrap (by decide)) nofun
  | gap quantity reading =>
    refine safe_referable ((safe_gap quantity).before ?_) nofun
    cases reading with
    | none => exact safe_nil
    | some t => exact safe_element (by decide) t
  | marked mark content => exact safe_referable (safe_element mark.isName_tag content) nofun
  | compoundJoin => exact safe_referable safe_blank nofun
  | _ => exact safe_referable safe_nil nofun

end Nodes

/-! ## 6. Ranges of characters -/

/-- Markup that may be taken apart between its pieces. -/
structure Parted (t : Text) : Prop where
  whole : Whole t
  closed : ∀ p ∈ pieces t, Closed (pieceText p)

section Ranges

variable {t u name : Text} {p : Piece} {P : Prop} {a : Apparatus} {n : Node} {ns : List Node}

theorem parted_piece (hp : Complete p) (hc : Closed (pieceText p)) : Parted (pieceText p) :=
  ⟨whole_of_complete hp, by rw [pieces_of_complete hp]; exact List.forall_mem_singleton.2 hc⟩

theorem parted_nil : Parted [] :=
  ⟨whole_nil, by rw [pieces]; exact List.forall_mem_nil _⟩

/-- Pieces of whole markup are those of its two halves. -/
theorem Parted.append (ht : Parted t) (hu : Parted u) : Parted (t ++ u) :=
  ⟨ht.whole.append hu.whole, by
    rw [ht.whole.pieces_append]
    exact List.forall_mem_append.2 ⟨ht.closed, hu.closed⟩⟩

theorem Parted.flatMap {α : Type} {f : α → Text} {as : List α} (h : ∀ a ∈ as, Parted (f a)) :
    Parted (as.flatMap f) := by
  induction as with
  | nil => exact parted_nil
  | cons a as ih =>
    obtain ⟨ha, has⟩ := List.forall_mem_cons.1 h
    exact ha.append (ih has)

theorem parted_reference (h : ';' ∉ name) : Parted (reference name) :=
  parted_piece (complete_reference h) (legalIff_reference h).closed

theorem parted_escape (t : Text) : Parted (escape t) :=
  Parted.flatMap fun c _ => parted_piece (complete_escapeChar c) (safe_escapeChar c).closed

/-- An element is its start tag, the characters of its text one by one, and its end tag. -/
theorem parted_element (hn : isName name = true) (content : Text) :
    Parted (element name content) := by
  have opening : Parted (startTag name []) := by
    refine parted_piece (complete_startTag hn .nil) ?_
    exact (((safe_tagName hn).before safe_nil).before (safe_silent (t := ['>']) rfl)).closed
  have ending : Parted (endTag name) := by
    refine parted_piece (complete_endTag hn) ?_
    exact ((safe_silent (t := "</") (by decide)).before (safe_text (plain_of_isName hn))).before
      (safe_silent (t := ['>']) rfl) |>.closed
  have shape : element name content = startTag name [] ++ (escape content ++ endTag name) := by
    simp [element, wrap, startTag, endTag]
  rw [shape]
  exact opening.append ((parted_escape content).append ending)

theorem parted_gap (quantity : Option Nat) : Parted (gap quantity) :=
  parted_piece (complete_gap quantity) (safe_gap quantity).closed

/-- Only the facsimile gets ranges, so that the other levels need not be taken apart. -/
theorem parted_facsimileOf (h : n.ClosedName) : Parted (a.facsimileOf n) := by
  cases n with
  | entity name =>
    show Parted (match a.reduced name with
      | some letters => escape letters
      | none => reference name)
    split
    · exact parted_escape _
    · exact parted_reference (h name rfl)
  | text content => exact parted_escape content
  | abbreviation abbr expansion => exact parted_element (by decide) abbr
  | gap quantity reading => exact parted_gap quantity
  | marked mark content =>
    cases mark with
    | supplied => exact parted_nil
    | deletion | addition | note | unclear => exact parted_element (Mark.isName_tag _) content
  | compoundJoin => exact parted_piece (complete_char (by decide) (by decide)) safe_blank.closed
  | _ => exact parted_nil

/-- What is put in around ranges is legal, wherever the ranges begin and end. -/
theorem LegalIff.inject (ht : LegalIff P t) (hp : Parted t) (ranges : List CharacterRange) :
    LegalIff P (inject t ranges) := by
  let items := itemsFrom ranges [] 0 (pieces t)
  have kept : items.filterMap Item.kept? = pieces t := kept_itemsFrom ..
  have each : ∀ i ∈ items, LegalIff (∀ p ∈ i.kept?, Legal (pieceText p)) i.text := by
    intro i hi
    cases i with
    | kept p =>
      have known : p ∈ pieces t := kept ▸ List.mem_filterMap.2 ⟨_, hi, rfl⟩
      exact ⟨hp.closed p known, fun h q hq => by cases hq; exact h, fun h => h p rfl⟩
    | opens kind =>
      refine LegalIff.congr ?_ (iff_true_intro nofun).symm
      exact ((safe_silent (t := "<c type=\"") (by decide)).before (safe_escape kind)).before
        (safe_silent (t := "\">") (by decide))
    | closes => exact (safe_silent (t := "</c>") (by decide)).congr (iff_true_intro nofun).symm
  have pieced : LegalIff (∀ p ∈ pieces t, Legal (pieceText p)) t := by
    have whole := LegalIff.flatMap (f := pieceText) fun p hm =>
      (⟨hp.closed p hm, .rfl⟩ : LegalIff (Legal (pieceText p)) (pieceText p))
    rwa [flatMap_pieces] at whole
  rw [inject_eq, ← text_itemsFrom]
  refine (LegalIff.flatMap each).congr ?_
  rw [← ht.legal, pieced.legal, ← kept]
  simp only [List.mem_filterMap, Option.mem_def, items]
  exact ⟨fun h p ⟨i, hi, hk⟩ => h i hi p hk, fun h i hi p hk => h p ⟨i, hi, hk⟩⟩

end Ranges

end Markup

end Transcription
