/-
Transcription.Proofs.Nesting — markup as a scan from left to right sees it.

The scan knows as little of markup as is needed to tell whether tags match: it
keeps the names of the open elements on a stack, passes over comments, and stops
at an end tag of another name (`not_wellNested_of_end`), at a bare angle bracket and
at an attribute that is not `name="value"` with a value free of angle brackets.

What leaves the scan in content with its stack as it was is `Nested`. Text without
delimiters is, and so is whatever is put together from nested pieces by the
functions that write markup: one lemma for each of them.
-/
import Transcription.Edition.Reading
import Transcription.Xml.Name
import Transcription.Proofs.WrittenNode

namespace Transcription.Markup

/-! ## 1. The scan -/

/-- Where a scan stands. In a tag the name of the tag is known. -/
inductive Place where
  | content
  /-- After an angle bracket. -/
  | bracket
  | name (tag : Text)
  /-- In a tag, after a blank. -/
  | blank (tag : Text)
  | attribute (tag : Text)
  /-- After the equals sign of an attribute. -/
  | equals (tag : Text)
  | value (tag : Text)
  /-- After the closing quote of a value. -/
  | valued (tag : Text)
  /-- After the stroke at the end of an empty tag. -/
  | stroke
  | closing (tag : Text)
  /-- In the sign that opens a comment, with one dash still to come or two. -/
  | opening (missing : Nat)
  /-- In a comment, after a number of dashes. -/
  | comment (dashes : Nat)
  deriving DecidableEq, Repr

/-- A scan on its way: the names of the open elements, the innermost first, and the
place. -/
structure Scan where
  stack : List Text
  place : Place
  deriving DecidableEq, Repr

namespace Scan

/-- Whether a character begins a name. -/
def beginsName (c : Char) : Bool :=
  Xml.isNameStart c || c = ':'

/-- What may follow a name or a value in a tag: a blank, or the end of the tag, at
which the element opens unless it is empty. -/
def inTag (stack : List Text) (tag : Text) (c : Char) : Option Scan :=
  if Xml.isSpace c then some ⟨stack, .blank tag⟩
  else if c = '/' then some ⟨stack, .stroke⟩
  else if c = '>' then some ⟨tag :: stack, .content⟩
  else none

/-- An end tag takes its name off the stack, which must be on top. -/
def close (tag : Text) : List Text → Option Scan
  | top :: stack => if top = tag then some ⟨stack, .content⟩ else none
  | [] => none

/-- The scan after one more character, unless this cannot stand there. -/
def step (scan : Scan) (c : Char) : Option Scan :=
  let stack := scan.stack
  match scan.place with
  | .content =>
      if c = '<' then some ⟨stack, .bracket⟩ else if c = '>' then none else some scan
  | .bracket =>
      if c = '/' then some ⟨stack, .closing []⟩
      else if c = '!' then some ⟨stack, .opening 1⟩
      else if beginsName c then some ⟨stack, .name [c]⟩
      else none
  | .name tag => if Xml.isNameRest c then some ⟨stack, .name (tag ++ [c])⟩ else inTag stack tag c
  | .blank tag => if beginsName c then some ⟨stack, .attribute tag⟩ else inTag stack tag c
  | .attribute tag =>
      if Xml.isNameRest c then some scan
      else if c = '=' then some ⟨stack, .equals tag⟩
      else none
  | .equals tag => if c = '\x22' then some ⟨stack, .value tag⟩ else none
  | .value tag =>
      if c = '\x22' then some ⟨stack, .valued tag⟩
      else if c = '<' ∨ c = '>' then none
      else some scan
  | .valued tag => inTag stack tag c
  | .stroke => if c = '>' then some ⟨stack, .content⟩ else none
  | .closing tag =>
      if Xml.isNameRest c then some ⟨stack, .closing (tag ++ [c])⟩
      else if c = '>' then close tag stack
      else none
  | .opening missing =>
      if c ≠ '-' then none
      else match missing with
        | missing + 1 => some ⟨stack, .opening missing⟩
        | 0 => some ⟨stack, .comment 0⟩
  | .comment dashes =>
      if c = '-' then some ⟨stack, .comment (dashes + 1)⟩
      else if c = '>' ∧ 2 ≤ dashes then some ⟨stack, .content⟩
      else some ⟨stack, .comment 0⟩

/-- The scan at the start and, of well nested markup, at the end. -/
def start : Scan :=
  ⟨[], .content⟩

/-- A scan reads a text and stands in another place then. -/
def Reads (scan : Scan) (t : Text) (after : Scan) : Prop :=
  t.foldlM step scan = some after

end Scan

open Scan

/-- The scan of the whole text meets no tag that does not match, no character that
cannot stand where it stands, and ends in content with no element open. -/
def WellNested (t : Text) : Prop :=
  Reads .start t .start

instance (t : Text) : Decidable (WellNested t) :=
  inferInstanceAs (Decidable (t.foldlM step .start = some .start))

/-! ## 2. One piece after the other -/

section Pieces

variable {scan mid after : Scan} {stack : List Text} {t u tag : Text} {c : Char}

theorem Scan.Reads.nil : Reads scan [] scan :=
  rfl

theorem Scan.Reads.append_iff :
    Reads scan (t ++ u) after ↔ ∃ mid, Reads scan t mid ∧ Reads mid u after := by
  rw [Reads, List.foldlM_append]
  exact Option.bind_eq_some_iff

theorem Scan.Reads.append (ht : Reads scan t mid) (hu : Reads mid u after) :
    Reads scan (t ++ u) after :=
  append_iff.2 ⟨mid, ht, hu⟩

/-- A scan reads one text in one way only, so what is read next starts where it ended. -/
theorem Scan.Reads.after_iff (ht : Reads scan t mid) :
    Reads scan (t ++ u) after ↔ Reads mid u after := by
  refine ⟨fun h => ?_, ht.append⟩
  obtain ⟨other, first, rest⟩ := append_iff.1 h
  obtain rfl := Option.some.inj (ht.symm.trans first)
  exact rest

theorem Scan.Reads.cons (hc : scan.step c = some mid) (ht : Reads mid t after) :
    Reads scan (c :: t) after := by
  rw [Reads, List.foldlM_cons, hc]
  exact ht

/-- What does not move the scan. -/
theorem reads_stay (h : ∀ c ∈ t, scan.step c = some scan) : Reads scan t scan := by
  induction t with
  | nil => exact .nil
  | cons c t ih =>
    obtain ⟨hc, ht⟩ := List.forall_mem_cons.1 h
    exact .cons hc (ih ht)

/-- A name, character by character. -/
theorem reads_name {place : Text → Place}
    (hp : ∀ tag c, Xml.isNameRest c = true →
      step ⟨stack, place tag⟩ c = some ⟨stack, place (tag ++ [c])⟩)
    (h : ∀ c ∈ t, Xml.isNameRest c = true) :
    Reads ⟨stack, place tag⟩ t ⟨stack, place (tag ++ t)⟩ := by
  induction t generalizing tag with
  | nil => rw [List.append_nil]; exact .nil
  | cons c t ih =>
    obtain ⟨hc, ht⟩ := List.forall_mem_cons.1 h
    have rest : Reads ⟨stack, place (tag ++ [c])⟩ t ⟨stack, place (tag ++ [c] ++ t)⟩ := ih ht
    rw [List.append_assoc] at rest
    exact .cons (hp tag c hc) rest

/-- The references that stand for something without a declaration. -/
def predefined : List Text :=
  ["amp", "lt", "gt", "quot", "apos"]

/-- Text that opens and closes nothing: no angle bracket and no quote. -/
def Inert (t : Text) : Prop :=
  ∀ c ∈ t, c ≠ '<' ∧ c ≠ '>' ∧ c ≠ '\x22'

instance (t : Text) : Decidable (Inert t) :=
  List.decidableBAll (fun c => c ≠ '<' ∧ c ≠ '>' ∧ c ≠ '\x22') t

/-- Markup that leaves the scan in content with the elements open that were. -/
def Nested (t : Text) : Prop :=
  ∀ stack, Reads ⟨stack, .content⟩ t ⟨stack, .content⟩

theorem Nested.nil : Nested [] :=
  fun _ => .nil

theorem Nested.append (ht : Nested t) (hu : Nested u) : Nested (t ++ u) :=
  fun stack => (ht stack).append (hu stack)

theorem Nested.flatMap {α : Type} {f : α → Text} {as : List α} (h : ∀ a ∈ as, Nested (f a)) :
    Nested (as.flatMap f) := by
  induction as with
  | nil => exact .nil
  | cons a as ih =>
    obtain ⟨ha, has⟩ := List.forall_mem_cons.1 h
    exact ha.append (ih has)

theorem Nested.wellNested (h : Nested t) : WellNested t :=
  h []

theorem Inert.nested (h : Inert t) : Nested t := by
  refine fun stack => reads_stay fun c hc => ?_
  obtain ⟨less, greater, -⟩ := h c hc
  simp only [step, less, greater, if_false]

theorem Inert.append (ht : Inert t) (hu : Inert u) : Inert (t ++ u) :=
  List.forall_mem_append.2 ⟨ht, hu⟩

/-- A character is written as a predefined reference or as itself. -/
theorem escapeChar_cases (c : Char) :
    (∃ name ∈ predefined, escapeChar c = reference name ∧ c ≠ '-')
      ∨ escapeChar c = [c] ∧ c ≠ '<' ∧ c ≠ '>' ∧ c ≠ '\x22' ∧ c ≠ '&' := by
  by_cases amp : c = '&'
  · exact .inl ⟨"amp", by decide, by subst amp; decide⟩
  by_cases less : c = '<'
  · exact .inl ⟨"lt", by decide, by subst less; decide⟩
  by_cases greater : c = '>'
  · exact .inl ⟨"gt", by decide, by subst greater; decide⟩
  by_cases quote : c = '\x22'
  · exact .inl ⟨"quot", by decide, by subst quote; decide⟩
  by_cases apostrophe : c = '\x27'
  · exact .inl ⟨"apos", by decide, by subst apostrophe; decide⟩
  refine .inr ⟨?_, less, greater, quote, amp⟩
  simp only [escapeChar, amp, less, greater, quote, apostrophe, if_false]

theorem inert_escapeChar (c : Char) : Inert (escapeChar c) := by
  have names : ∀ name ∈ predefined, Inert (reference name) := by decide
  rcases escapeChar_cases c with ⟨name, hn, shape, -⟩ | ⟨shape, less, greater, quote, -⟩
  · rw [shape]
    exact names name hn
  · rw [shape]
    exact List.forall_mem_singleton.2 ⟨less, greater, quote⟩

/-- Escaped text is inert, whatever it was. -/
theorem inert_escape (t : Text) : Inert (escape t) := by
  intro c hc
  obtain ⟨d, -, hd⟩ := List.mem_flatMap.1 hc
  exact inert_escapeChar d c hd

theorem nested_escape (t : Text) : Nested (escape t) :=
  (inert_escape t).nested

end Pieces

/-! ## 3. Tags -/

/-- Whether a text is a name. -/
def isName : Text → Bool
  | [] => false
  | c :: more => beginsName c && more.all Xml.isNameRest

/-- A scan stands where the attributes of a tag may go on. -/
def Place.IsAfter (tag : Text) (place : Place) : Prop :=
  place = .name tag ∨ place = .valued tag

/-- Attributes with a blank before each, as they stand in a tag. -/
def Attributed (attrs : Text) : Prop :=
  ∀ stack tag place, Place.IsAfter tag place →
    ∃ after, after.IsAfter tag ∧ Reads ⟨stack, place⟩ attrs ⟨stack, after⟩

section Tags

variable {stack : List Text} {t name tag attrs value content rest : Text} {c : Char} {place : Place}
  {table : Table Text}

/-- No delimiter of a tag goes on in a name. -/
theorem isNameRest_delimiter : ∀ c ∈ [' ', '/', '>', '='], Xml.isNameRest c = false :=
  Text.forall_of_check (by decide)

/-- Before a blank or the end of the tag it makes no difference whether a name or a
value was read last. -/
theorem step_isAfter (h : place.IsAfter tag) (hc : c ∈ [' ', '/', '>', '=']) :
    step ⟨stack, place⟩ c = inTag stack tag c := by
  rcases h with rfl | rfl
  · simp only [step, isNameRest_delimiter c hc, Bool.false_eq_true, if_false]
  · rfl

/-- A character that begins a name ends nothing. -/
theorem ne_of_beginsName (h : beginsName c = true) : c ≠ '/' ∧ c ≠ '!' := by
  have others : beginsName '/' = false ∧ beginsName '!' = false := by decide
  constructor <;> rintro rfl
  · exact absurd h (by rw [others.1]; decide)
  · exact absurd h (by rw [others.2]; decide)

/-- The start of a tag, up to its attributes. -/
theorem reads_tagName (hn : isName name = true) :
    Reads ⟨stack, .content⟩ ('<' :: name) ⟨stack, .name name⟩ := by
  cases name with
  | nil => cases hn
  | cons c more =>
    obtain ⟨hc, hm⟩ := Bool.and_eq_true_iff.1 hn
    obtain ⟨noStroke, noBang⟩ := ne_of_beginsName hc
    have begins : step ⟨stack, .bracket⟩ c = some ⟨stack, .name [c]⟩ := by
      simp only [step, noStroke, noBang, hc, if_false, if_true]
    have goesOn (tag : Text) (d : Char) (hd : Xml.isNameRest d = true) :
        step ⟨stack, .name tag⟩ d = some ⟨stack, .name (tag ++ [d])⟩ := by
      simp only [step, hd, if_true]
    exact .cons rfl (.cons begins (reads_name goesOn (List.all_eq_true.1 hm)))

theorem isNameRest_of_isName (hn : isName name = true) : ∀ c ∈ name, Xml.isNameRest c = true := by
  cases name with
  | nil => nofun
  | cons c more =>
    obtain ⟨hc, hm⟩ := Bool.and_eq_true_iff.1 hn
    refine List.forall_mem_cons.2 ⟨?_, List.all_eq_true.1 hm⟩
    have start : Xml.isNameStart c = true ∨ c = ':' := by simpa [beginsName] using hc
    rcases start with h | h <;> simp [Xml.isNameRest, Xml.isNameMore, h]

/-- The name of an end tag. -/
theorem reads_endName (hn : isName name = true) :
    Reads ⟨stack, .closing []⟩ name ⟨stack, .closing name⟩ := by
  refine reads_name (fun tag d hd => ?_) (isNameRest_of_isName hn)
  simp only [step, hd, if_true]

/-- An end tag closes the innermost element when the names are the same. -/
theorem step_end (stack : List Text) (name : Text) :
    step ⟨name :: stack, .closing name⟩ '>' = some ⟨stack, .content⟩ := by
  simp only [step, isNameRest_delimiter '>' (by decide), close, Bool.false_eq_true, if_false,
    if_true]

/-- An end tag is read where its element is the innermost one, and only there. -/
theorem reads_end_iff {after : Scan} (hn : isName name = true) :
    Reads ⟨stack, .content⟩ ("</" ++ name ++ '>' :: rest) after
      ↔ ∃ outer, stack = name :: outer ∧ Reads ⟨outer, .content⟩ rest after := by
  have opens : Reads ⟨stack, .content⟩ "</" ⟨stack, .closing []⟩ := rfl
  rw [(opens.append (reads_endName hn)).after_iff]
  constructor
  · intro h
    have ends : step ⟨stack, .closing name⟩ '>' = close name stack := by
      simp only [step, isNameRest_delimiter '>' (by decide), Bool.false_eq_true, if_false, if_true]
    rw [Reads, List.foldlM_cons, ends] at h
    cases stack with
    | nil => cases h
    | cons top outer =>
      by_cases same : top = name
      · rw [close, if_pos same] at h
        exact ⟨outer, by rw [same], h⟩
      · rw [close, if_neg same] at h
        cases h
  · rintro ⟨outer, rfl, h⟩
    exact .cons (step_end outer name) h

/-- An end tag of another name stops the scan, whatever follows. -/
theorem not_wellNested_of_end {top : Text} (ht : Reads .start t ⟨top :: stack, .content⟩)
    (hn : isName name = true) (hne : top ≠ name) (rest : Text) :
    ¬WellNested (t ++ "</" ++ name ++ '>' :: rest) := by
  rw [WellNested, List.append_assoc t, List.append_assoc t, ht.after_iff, reads_end_iff hn]
  rintro ⟨outer, same, -⟩
  exact hne (List.cons.inj same).1

example : ¬WellNested "<a><b></a></b>" := by decide

theorem Attributed.nil : Attributed [] :=
  fun _ _ place h => ⟨place, h, .nil⟩

theorem Attributed.append {more : Text} (ha : Attributed attrs) (hm : Attributed more) :
    Attributed (attrs ++ more) := by
  intro stack tag place h
  obtain ⟨mid, hmid, first⟩ := ha stack tag place h
  obtain ⟨after, hafter, second⟩ := hm stack tag mid hmid
  exact ⟨after, hafter, first.append second⟩

/-- One attribute, with a value that needs no escaping any more. -/
theorem attributed_single (hn : isName name = true) (hv : Inert value) :
    Attributed (' ' :: name ++ "=\"" ++ value ++ "\"") := by
  intro stack tag place h
  have blank : step ⟨stack, place⟩ ' ' = some ⟨stack, .blank tag⟩ :=
    step_isAfter h (by decide)
  have named : Reads ⟨stack, .blank tag⟩ name ⟨stack, .attribute tag⟩ := by
    cases name with
    | nil => cases hn
    | cons c more =>
      obtain ⟨hc, hm⟩ := Bool.and_eq_true_iff.1 hn
      have begins : step ⟨stack, .blank tag⟩ c = some ⟨stack, .attribute tag⟩ := by
        simp only [step, hc, if_true]
      refine .cons begins (reads_stay fun d hd => ?_)
      simp only [step, List.all_eq_true.1 hm d hd, if_true]
  have equals : Reads ⟨stack, .attribute tag⟩ "=\"" ⟨stack, .value tag⟩ := by
    have sign : step ⟨stack, .attribute tag⟩ '=' = some ⟨stack, .equals tag⟩ := by
      simp only [step, isNameRest_delimiter '=' (by decide), Bool.false_eq_true, if_false, if_true]
    exact .cons sign rfl
  have valued : Reads ⟨stack, .value tag⟩ value ⟨stack, .value tag⟩ := by
    refine reads_stay fun d hd => ?_
    obtain ⟨less, greater, quote⟩ := hv d hd
    simp only [step, less, greater, quote, or_self, if_false]
  have quoted : Reads ⟨stack, .value tag⟩ "\"" ⟨stack, .valued tag⟩ := rfl
  have whole := (((Reads.cons blank named).append equals).append valued).append quoted
  exact ⟨.valued tag, .inr rfl, whole⟩

theorem attributed_attr (hn : isName name = true) (value : Text) : Attributed (attr name value) :=
  attributed_single hn (inert_escape value)

theorem attributed_attributes (h : ∀ entry ∈ table, isName entry.1 = true) :
    Attributed (attributes table) := by
  induction table with
  | nil => exact .nil
  | cons entry table ih =>
    obtain ⟨he, ht⟩ := List.forall_mem_cons.1 h
    exact (attributed_attr he entry.2).append (ih ht)

/-! ## 4. Elements -/

/-- A start tag, however it begins. -/
theorem reads_start {opening : Text} (opens : Reads ⟨stack, .content⟩ opening ⟨stack, .name tag⟩)
    (ha : Attributed attrs) :
    Reads ⟨stack, .content⟩ (opening ++ attrs ++ ['>']) ⟨tag :: stack, .content⟩ := by
  obtain ⟨place, hp, inside⟩ := ha stack tag _ (.inl rfl)
  have enters : step ⟨stack, place⟩ '>' = some ⟨tag :: stack, .content⟩ :=
    step_isAfter hp (by decide)
  exact (opens.append inside).append (.cons enters .nil)

/-- An element, however its start tag begins and its end tag ends. -/
theorem reads_element {opening ending : Text} {after : Scan}
    (opens : Reads ⟨stack, .content⟩ opening ⟨stack, .name tag⟩) (ha : Attributed attrs)
    (hc : Nested content) (ends : Reads ⟨tag :: stack, .content⟩ ending after) :
    Reads ⟨stack, .content⟩ (opening ++ attrs ++ '>' :: content ++ ending) after := by
  have whole := ((reads_start opens ha).append (hc _)).append ends
  simpa only [List.append_assoc, List.singleton_append] using whole

/-- An element with attributes, and what follows it. -/
theorem nested_tagged (hn : isName name = true) (ha : Attributed attrs) (hc : Nested content)
    (hr : Nested rest) :
    Nested ('<' :: name ++ attrs ++ '>' :: content ++ "</" ++ name ++ '>' :: rest) := by
  intro stack
  have opens : Reads ⟨name :: stack, .content⟩ "</" ⟨name :: stack, .closing []⟩ := rfl
  have ends := (opens.append (reads_endName hn)).append (.cons (step_end stack name) (hr stack))
  have whole := reads_element (reads_tagName hn) ha hc ends
  simpa only [List.append_assoc] using whole

/-- An empty tag. -/
theorem nested_emptyTag (hn : isName name = true) (ha : Attributed attrs) :
    Nested ('<' :: name ++ attrs ++ "/>") := by
  intro stack
  obtain ⟨place, hp, inside⟩ := ha stack name (.name name) (.inl rfl)
  have stroke : step ⟨stack, place⟩ '/' = some ⟨stack, .stroke⟩ := step_isAfter hp (by decide)
  exact ((reads_tagName hn).append inside).append (.cons stroke rfl)

theorem nested_wrap (hn : isName name = true) (hc : Nested content) :
    Nested (wrap name content) := by
  have whole := nested_tagged hn .nil hc .nil
  rwa [List.append_nil] at whole

theorem nested_element (hn : isName name = true) (content : Text) :
    Nested (element name content) :=
  nested_wrap hn (nested_escape content)

/-! ## 5. References, gaps and comments -/

/-- The name of an entity is inert. -/
theorem inert_of_isNameChar (h : ∀ c ∈ name, Lexer.isNameChar c = true) : Inert name := by
  have signs : ∀ c ∈ ['<', '>', '\x22'], Lexer.isNameChar c = false :=
    Text.forall_of_check (by decide)
  have other {d : Char} (hd : d ∈ ['<', '>', '\x22']) : ∀ c ∈ name, c ≠ d := by
    rintro c hc rfl
    have goesOn := h c hc
    rw [signs c hd] at goesOn
    cases goesOn
  exact fun c hc => ⟨other (by decide) c hc, other (by decide) c hc, other (by decide) c hc⟩

/-- Nor does it hold the sign that would end a reference to it. -/
theorem not_mem_of_isNameChar (h : ∀ c ∈ name, Lexer.isNameChar c = true) : ';' ∉ name :=
  fun ends => absurd (h ';' ends) (by decide)

theorem inert_reference (h : Inert name) : Inert (reference name) :=
  List.forall_mem_append.2
    ⟨List.forall_mem_cons.2 ⟨by decide, h⟩, List.forall_mem_singleton.2 (by decide)⟩

theorem nested_reference (h : Inert name) : Nested (reference name) :=
  (inert_reference h).nested

theorem inert_ofNat (n : Nat) : Inert (Text.ofNat n) := by
  intro c hc
  have digit := Text.isDigit_of_ofNat n c hc
  refine ⟨?_, ?_, ?_⟩ <;> (rintro rfl; revert digit; decide)

/-- The attributes in the mark of a gap. -/
def gapAttributes : Option Nat → Text
  | none => " reason=\"illegible\""
  | some n => " reason=\"illegible\"" ++ (" quantity=\"" ++ Text.ofNat n ++ "\"")
      ++ " unit=\"chars\""

theorem gap_eq (quantity : Option Nat) :
    gap quantity = '<' :: "gap" ++ gapAttributes quantity ++ "/>" := by
  cases quantity with
  | none => rfl
  | some n =>
    have front : ("<gap reason=\"illegible\" quantity=\"" : Text)
        = '<' :: "gap" ++ (" reason=\"illegible\"" ++ " quantity=\"") := rfl
    have back : ("\" unit=\"chars\"/>" : Text) = "\"" ++ (" unit=\"chars\"" ++ "/>") := rfl
    have shape : gap (some n) = "<gap reason=\"illegible\" quantity=\"" ++ Text.ofNat n
        ++ "\" unit=\"chars\"/>" := rfl
    have attrs : gapAttributes (some n) = " reason=\"illegible\"" ++ (" quantity=\"" ++ Text.ofNat n
        ++ "\"") ++ " unit=\"chars\"" := rfl
    rw [shape, front, back, attrs]
    simp only [List.append_assoc, List.cons_append]

theorem attributed_gapAttributes (quantity : Option Nat) : Attributed (gapAttributes quantity) := by
  have reason : Attributed " reason=\"illegible\"" :=
    @attributed_single "reason" "illegible" (by decide) (by decide)
  cases quantity with
  | none => exact reason
  | some n =>
    have count : Attributed (" quantity=\"" ++ Text.ofNat n ++ "\"") :=
      @attributed_single "quantity" _ (by decide) (inert_ofNat n)
    have unit : Attributed " unit=\"chars\"" :=
      @attributed_single "unit" "chars" (by decide) (by decide)
    exact (reason.append count).append unit

theorem nested_gap (quantity : Option Nat) : Nested (gap quantity) := by
  rw [gap_eq]
  exact @nested_emptyTag "gap" _ (by decide) (attributed_gapAttributes quantity)

/-- Text without an angle bracket does not end a comment. -/
theorem reads_comment (h : Inert t) (dashes : Nat) :
    ∃ after, Reads ⟨stack, .comment dashes⟩ t ⟨stack, .comment after⟩ := by
  induction t generalizing dashes with
  | nil => exact ⟨dashes, .nil⟩
  | cons c t ih =>
    obtain ⟨hc, ht⟩ := List.forall_mem_cons.1 h
    by_cases dash : c = '-'
    · obtain ⟨after, rest⟩ := ih ht (dashes + 1)
      exact ⟨after, .cons (by simp only [step, dash, if_true]) rest⟩
    · obtain ⟨after, rest⟩ := ih ht 0
      exact ⟨after, .cons (by simp only [step, dash, hc.2.1, false_and, if_false]) rest⟩

/-- A comment about a source, which cannot end it. -/
theorem nested_remark {label : Text} (hl : Inert label) (source : Text) :
    Nested (remark label source) := by
  intro stack
  have opens : Reads ⟨stack, .content⟩ "<!-- " ⟨stack, .comment 0⟩ := rfl
  have said : Inert (label ++ ": " ++ escape source) :=
    (hl.append (by decide)).append (inert_escape source)
  obtain ⟨dashes, inside⟩ := @reads_comment stack _ said 0
  have ends : Reads ⟨stack, .comment dashes⟩ " -->" ⟨stack, .content⟩ := rfl
  have shape : remark label source = "<!-- " ++ label ++ ": " ++ escape source ++ " -->" := rfl
  have whole := (opens.append inside).append ends
  rw [shape]
  simpa only [List.append_assoc] using whole

end Tags

end Transcription.Markup
