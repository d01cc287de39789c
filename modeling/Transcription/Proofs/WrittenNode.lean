/-
Transcription.Proofs.WrittenNode — a node reads back from its written form, and
nothing but such nodes is ever read.

`Node.Admissible` states the conditions on the texts of a node alone: what stands
in brackets is balanced, a supplied text neither ends itself nor begins like a
doubled sign, a name is made of the characters of names.

**`construct_closed`**: an admissible node that its own signs end reads back,
whatever follows it. Breaks have no such sign, so that a label may go on in the
text after them. **`construct_joined_break`** and **`construct_break`** say what
must not follow them inside a word and outside.

**`readAs_of_construct`**: whatever the text, a construct is read as an
admissible node, with the sign before it that a break inside a word has.
-/
import Transcription.Proofs.Scanning

namespace Transcription

/-! ## 1. Characters and numerals -/

namespace Text

/-- What is checked for one character after the other holds for all of them. -/
theorem forall_of_check {p : Char → Prop} [DecidablePred p] {t : Text}
    (h : t.all (fun c => p c) = true) : ∀ c ∈ t, p c := by
  simpa using h

theorem isDigit_digit : ∀ n, n < 10 → isDigit (digit n) = true := by
  decide

theorem toNat_digit : ∀ n, n < 10 → (digit n).toNat - '0'.toNat = n := by
  decide

/-- A numeral is made of digits. -/
theorem isDigit_of_ofNat (n : Nat) : ∀ c ∈ ofNat n, isDigit c = true := by
  induction n using Nat.strongRecOn with
  | ind n ih =>
    intro c hc
    rw [ofNat] at hc
    split at hc
    · next hn =>
      rw [List.mem_singleton.1 hc]
      exact isDigit_digit n hn
    · rcases List.mem_append.1 hc with hc | hc
      · exact ih (n / 10) (by omega) c hc
      · rw [List.mem_singleton.1 hc]
        exact isDigit_digit (n % 10) (by omega)

theorem digitsValue_snoc (t : Text) (c : Char) :
    digitsValue (t ++ [c]) = 10 * digitsValue t + (c.toNat - '0'.toNat) := by
  simp [digitsValue]

/-- By induction on the number, a digit less at a time. -/
theorem digitsValue_ofNat (n : Nat) : digitsValue (ofNat n) = n := by
  induction n using Nat.strongRecOn with
  | ind n ih =>
    rw [ofNat]
    split
    · next hn => simpa [digitsValue] using toNat_digit n hn
    · rw [digitsValue_snoc, ih (n / 10) (by omega), toNat_digit (n % 10) (by omega)]
      omega

theorem ofNat_ne_nil (n : Nat) : ofNat n ≠ [] := by
  rw [ofNat]
  split <;> simp

/-- A numeral reads back as its number. -/
theorem toNat?_ofNat (n : Nat) : toNat? (ofNat n) = some n := by
  have digits : (ofNat n).all isDigit = true := List.all_eq_true.2 (isDigit_of_ofNat n)
  simp [toNat?, digits, ofNat_ne_nil, digitsValue_ofNat]

end Text

/-! ## 2. Admissible nodes -/

open Lexer

/-- A mark can stand around the text. -/
def Mark.Admits : Mark → Text → Prop
  | .supplied, content => '>' ∉ content ∧ content.head? ≠ some '<'
  | _, content => Balanced (bracketDepth '}') content

namespace Node

/-- The texts of a node can stand where they are written. -/
def Admissible : Node → Prop
  | .text content => content ≠ []
  | .abbreviation abbr expansion =>
      Balanced (bracketDepth ']') abbr ∧ Balanced (bracketDepth '}') expansion
  | .gap _ reading => ∀ t ∈ reading, '>' ∉ t
  | .marked mark content => mark.Admits content
  | .entity name => name ≠ [] ∧ ∀ c ∈ name, isNameChar c = true
  | .block _ body => Balanced braceDepth body
  | .lineBreak label => ∀ t ∈ label, t ≠ [] ∧ '}' ∉ t
  | .pageBreak label => '}' ∉ label ∨ BreakKind.page.bareLabel label = true
  | .compoundJoin | .continuation | .boundary => True
  | .group _ _ => False

/-- Whether a node is a run of text. -/
def isText : Node → Bool
  | .text _ => true
  | _ => false

/-- Whether the written form of a node ends with a sign that closes it. -/
def isClosed : Node → Bool
  | .abbreviation _ _ | .gap _ _ | .marked _ _ | .entity _ | .block _ _ | .boundary => true
  | _ => false

/-- The label of a break, empty when there is none. -/
def label : Node → Text
  | .lineBreak label => label.getD []
  | .pageBreak label => label
  | _ => []

/-- The nodes that a group holds. -/
def children : Node → List Node
  | .group _ children => children
  | _ => []

end Node

namespace Lexer

/-- A character that no label begins with, and that adds nothing to the sign of
a break. -/
def BeginsNoLabel (c : Char) : Prop :=
  c ≠ '{' ∧ c ≠ '/' ∧ Text.isDigit c = false

instance (c : Char) : Decidable (BeginsNoLabel c) :=
  inferInstanceAs (Decidable (c ≠ '{' ∧ c ≠ '/' ∧ Text.isDigit c = false))

theorem covers_digit : ∀ n, n < 58 → 48 ≤ n → Unicode.blankRanges.covers n = false := by
  decide

/-- No blank is a digit, which the table of blanks tells. -/
theorem not_isDigit_of_isBlank {c : Char} (h : isBlank c = true) : Text.isDigit c = false := by
  cases hd : Text.isDigit c with
  | false => rfl
  | true =>
    simp only [Text.isDigit, Bool.and_eq_true, decide_eq_true_eq, Char.le_def,
      UInt32.le_iff_toNat_le] at hd
    rw [isBlank, covers_digit c.toNat (Nat.lt_succ_of_le hd.2) hd.1] at h
    cases h

/-- A blank begins no label. -/
theorem beginsNoLabel_of_isBlank {c : Char} (h : isBlank c = true) : BeginsNoLabel c :=
  ⟨ne_of_isBlank h (by decide), ne_of_isBlank h (by decide), not_isDigit_of_isBlank h⟩

/-! ## 3. Written forms

Each written form with the rest of the text behind it, its first characters
set apart as the reader meets them. -/

section Forms

variable (inWord : Bool) (rest : Text)

theorem writeIn_abbreviation (abbr expansion : Text) :
    (Node.abbreviation abbr expansion).writeIn inWord ++ rest
      = '.' :: 'a' :: 'b' :: 'b' :: 'r' :: '['
          :: (abbr ++ ']' :: '{' :: (expansion ++ '}' :: rest)) := by
  show (['.', 'a', 'b', 'b', 'r', '['] ++ abbr ++ ']' :: '{' :: expansion ++ ['}']) ++ rest = _
  simp only [List.append_assoc, List.cons_append, List.nil_append]

theorem writeIn_gap (quantity : Option Nat) (reading : Option Text) :
    (Node.gap quantity reading).writeIn inWord ++ rest
      = '[' :: '.' :: '.' :: '.' :: ((quantity.map Text.ofNat).getD []
          ++ ((reading.map fun t => '<' :: t ++ ['>']).getD [] ++ ']' :: rest)) := by
  show (['[', '.', '.', '.'] ++ (quantity.map Text.ofNat).getD []
    ++ (reading.map fun t => '<' :: t ++ ['>']).getD [] ++ [']']) ++ rest = _
  simp only [List.append_assoc, List.cons_append, List.nil_append]

theorem writeIn_marked (mark : Mark) (content : Text) :
    (Node.marked mark content).writeIn inWord ++ rest
      = mark.opening ++ (content ++ (mark.closing ++ rest)) := by
  show mark.opening ++ content ++ mark.closing ++ rest = _
  simp only [List.append_assoc]

theorem writeIn_entity (name : Text) :
    (Node.entity name).writeIn inWord ++ rest = ':' :: (name ++ ':' :: rest) := by
  show ':' :: name ++ [':'] ++ rest = _
  simp only [List.append_assoc, List.cons_append, List.nil_append]

theorem writeIn_block (kind : BlockKind) (body : Text) :
    (Node.block kind body).writeIn inWord ++ rest = kind.opening ++ (body ++ '}' :: rest) := by
  show kind.opening ++ body ++ ['}'] ++ rest = _
  simp only [List.append_assoc, List.cons_append, List.nil_append]

end Forms

/-! ## 4. Reading back what is written -/

/-- No opening of a block is the beginning of another one. -/
theorem blockOpening?_append (kind : BlockKind) (t : Text) :
    blockOpening? (kind.opening ++ t) = some (kind, t) := by
  cases kind <;> rfl

theorem blockOpening?_abbreviation (t : Text) : blockOpening? ('.' :: 'a' :: t) = none := rfl

theorem after?_abbreviation (t : Text) :
    Text.after? ".abbr[" ('.' :: 'a' :: 'b' :: 'b' :: 'r' :: '[' :: t) = some t := rfl

theorem construct_dotted (t : Text) : construct ('.' :: t) = dotted ('.' :: t) := rfl

/-- An abbreviation is read after its opening. -/
theorem abbreviationRest_written {abbr expansion : Text}
    (ha : Balanced (bracketDepth ']') abbr) (he : Balanced (bracketDepth '}') expansion)
    (rest : Text) : abbreviationRest (abbr ++ ']' :: '{' :: (expansion ++ '}' :: rest))
      = .ok ([.abbreviation abbr expansion], rest) := by
  have short : bracketed ']' (abbr ++ ']' :: '{' :: (expansion ++ '}' :: rest))
      = .ok (abbr, '{' :: (expansion ++ '}' :: rest)) := bracketed_eq_ok_iff.2 ⟨rfl, ha⟩
  have brace : expect '{' ('{' :: (expansion ++ '}' :: rest)) = .ok (expansion ++ '}' :: rest) :=
    expect_eq_ok_iff.2 rfl
  have long : bracketed '}' (expansion ++ '}' :: rest) = .ok (expansion, rest) :=
    bracketed_eq_ok_iff.2 ⟨rfl, he⟩
  simp only [abbreviationRest, short, brace, long, bind, Except.bind, pure, Except.pure]

/-- Each of the two parts is read up to the bracket that balances it. -/
theorem construct_abbreviation {abbr expansion : Text}
    (ha : Balanced (bracketDepth ']') abbr) (he : Balanced (bracketDepth '}') expansion)
    (inWord : Bool) (rest : Text) :
    construct ((Node.abbreviation abbr expansion).writeIn inWord ++ rest)
      = .ok (some ([.abbreviation abbr expansion], rest)) := by
  rw [writeIn_abbreviation, construct_dotted, dotted, blockOpening?_abbreviation]
  simp only [after?_abbreviation, abbreviationRest_written ha he]
  rfl

/-- A gap is read after its opening. -/
theorem gapRest_written {digits : Text} {reading : Option Text}
    (hd : ∀ c ∈ digits, Text.isDigit c = true) (hr : ∀ t ∈ reading, '>' ∉ t) (rest : Text) :
    gapRest (digits ++ ((reading.map fun t => '<' :: t ++ ['>']).getD [] ++ ']' :: rest))
      = .ok ([.gap (Text.toNat? digits) reading], rest) := by
  have stop : ∀ c ∈ (((reading.map fun t => '<' :: t ++ ['>']).getD [] ++ ']' :: rest)).head?,
      Text.isDigit c = false := by
    intro c hc
    cases reading <;> cases hc <;> decide
  have content : gapReading ((reading.map fun t => '<' :: t ++ ['>']).getD [] ++ ']' :: rest)
      = .ok (reading, ']' :: rest) := by
    cases reading with
    | none => rfl
    | some t =>
      have closed : closedBy '>' (t ++ '>' :: ']' :: rest) = .ok (t, ']' :: rest) :=
        closedBy_eq_ok_iff.2 ⟨rfl, hr t rfl⟩
      simp [gapReading, closed, bind, Except.bind, pure, Except.pure]
  have bracket : expect ']' (']' :: rest) = .ok rest := expect_eq_ok_iff.2 rfl
  simp only [gapRest, span_append_stop hd stop, content, bracket, bind, Except.bind, pure,
    Except.pure]

/-- Digits and a reading are both optional, and neither is taken for the other. -/
theorem construct_gap (quantity : Option Nat) {reading : Option Text}
    (hr : ∀ t ∈ reading, '>' ∉ t) (inWord : Bool) (rest : Text) :
    construct ((Node.gap quantity reading).writeIn inWord ++ rest)
      = .ok (some ([.gap quantity reading], rest)) := by
  have digits : ∀ c ∈ (quantity.map Text.ofNat).getD [], Text.isDigit c = true := by
    cases quantity with
    | none => simp
    | some n => exact Text.isDigit_of_ofNat n
  have number : Text.toNat? ((quantity.map Text.ofNat).getD []) = quantity := by
    cases quantity with
    | none => rfl
    | some n => exact Text.toNat?_ofNat n
  rw [writeIn_gap]
  show some <$> gapRest _ = _
  rw [gapRest_written digits hr, number]
  rfl

/-- A mark in braces reads back after its opening, with its closing sign if it
has one. -/
theorem markRest_closing {mark : Mark} {content : Text}
    (h : Balanced (bracketDepth '}') content) (hm : mark ≠ .supplied) (rest : Text) :
    markRest mark (content ++ (mark.closing ++ rest)) = .ok ([.marked mark content], rest) := by
  have shape : mark.closing = ['}'] ∨ ∃ sign, mark.closing = ['}', sign] := by
    cases mark with
    | supplied => exact absurd rfl hm
    | note => exact .inl rfl
    | deletion | addition | unclear => exact .inr ⟨_, rfl⟩
  rcases shape with hc | ⟨sign, hc⟩
  · have inside : bracketed '}' (content ++ (['}'] ++ rest)) = .ok (content, rest) :=
      bracketed_eq_ok_iff.2 ⟨rfl, h⟩
    simp only [markRest, hc, inside, bind, Except.bind, pure, Except.pure]
  · have inside : bracketed '}' (content ++ (['}', sign] ++ rest)) = .ok (content, sign :: rest) :=
      bracketed_eq_ok_iff.2 ⟨rfl, h⟩
    have closing : expect sign (sign :: rest) = .ok rest := expect_eq_ok_iff.2 rfl
    simp only [markRest, hc, inside, closing, bind, Except.bind, pure, Except.pure]

/-- Supplied text ends at the first closing angle bracket. -/
theorem construct_supplied {content : Text} (h : Mark.supplied.Admits content) (rest : Text) :
    construct ('<' :: (content ++ '>' :: rest))
      = .ok (some ([.marked .supplied content], rest)) := by
  have closed : closedBy '>' (content ++ '>' :: rest) = .ok (content, rest) :=
    closedBy_eq_ok_iff.2 ⟨rfl, h.1⟩
  have single : construct ('<' :: (content ++ '>' :: rest))
      = some <$> suppliedRest (content ++ '>' :: rest) := by
    cases content with
    | nil => rfl
    | cons c content =>
      have hc : c ≠ '<' := fun he => h.2 (congrArg some he)
      simp [construct, hc]
  rw [single]
  simp only [suppliedRest, closed, bind, Except.bind, pure, Except.pure]
  rfl

/-- A mark is read back with its sign, if its kind has one behind. -/
theorem construct_marked {mark : Mark} {content : Text} (h : mark.Admits content)
    (inWord : Bool) (rest : Text) :
    construct ((Node.marked mark content).writeIn inWord ++ rest)
      = .ok (some ([.marked mark content], rest)) := by
  have braces (hm : mark ≠ .supplied) (hb : Balanced (bracketDepth '}') content) :
      some <$> markRest mark (content ++ (mark.closing ++ rest))
        = .ok (some ([.marked mark content], rest)) := by
    rw [markRest_closing hb hm]
    rfl
  rw [writeIn_marked]
  cases mark with
  | supplied => exact construct_supplied h rest
  | deletion => exact braces (by decide) h
  | addition => exact braces (by decide) h
  | note => exact braces (by decide) h
  | unclear => exact braces (by decide) h

/-- A name is read up to the colon. -/
theorem construct_entity {name : Text} (hne : name ≠ [])
    (hn : ∀ c ∈ name, isNameChar c = true) (inWord : Bool) (rest : Text) :
    construct ((Node.entity name).writeIn inWord ++ rest)
      = .ok (some ([.entity name], rest)) := by
  have found : entityName? (name ++ ':' :: rest) = some (name, rest) :=
    entityName?_eq_some_iff.2 ⟨rfl, hne, hn⟩
  rw [writeIn_entity]
  show Except.ok (Option.map _ (entityName? (name ++ ':' :: rest))) = _
  rw [found]
  rfl

theorem construct_block {kind : BlockKind} {body : Text} (h : Balanced braceDepth body)
    (inWord : Bool) (rest : Text) :
    construct ((Node.block kind body).writeIn inWord ++ rest)
      = .ok (some ([.block kind body], rest)) := by
  have inside : braced (body ++ '}' :: rest) = .ok (body, rest) := braced_eq_ok_iff.2 ⟨rfl, h⟩
  rw [writeIn_block]
  show dotted (kind.opening ++ (body ++ '}' :: rest)) = _
  simp only [dotted, blockOpening?_append, inside, bind, Except.bind, pure, Except.pure]

/-! ## 5. Breaks -/

section Dispatch

variable {t : Text}

/-- Two strokes without a third are a line. -/
theorem construct_line (ht : t.head? ≠ some '/') :
    construct ('/' :: '/' :: t) = some <$> lineBreakRest [] t := by
  cases t with
  | nil => rfl
  | cons c t =>
    have hc : c ≠ '/' := fun he => ht (congrArg some he)
    simp [construct, hc]

theorem construct_joined_line (ht : t.head? ≠ some '/') :
    construct ('~' :: '/' :: '/' :: t) = some <$> lineBreakRest [.continuation] t := by
  cases t with
  | nil => rfl
  | cons c t =>
    have hc : c ≠ '/' := fun he => ht (congrArg some he)
    simp [construct, hc]

/-- A joint stands where no break follows. -/
theorem construct_compoundJoin (ht : ∀ u, t ≠ '/' :: '/' :: u) :
    construct ('~' :: t) = .ok (some ([.compoundJoin], t)) := by
  unfold construct
  split <;> simp_all

end Dispatch

section Breaks

variable {label : Option Text} {page rest : Text} {n : Node}

/-- An empty label is none, and none is written for an empty one. -/
theorem labelOf_getD (h : ∀ t ∈ label, t ≠ [] ∧ '}' ∉ t) : labelOf (label.getD []) = label := by
  cases label with
  | none => rfl
  | some t => simp [labelOf, (h t rfl).1]

theorem getD_labelOf (read : Text) : (labelOf read).getD [] = read := by
  cases read <;> rfl

theorem not_mem_getD (h : ∀ t ∈ label, t ≠ [] ∧ '}' ∉ t) : '}' ∉ label.getD [] := by
  cases label with
  | none => exact List.not_mem_nil
  | some t => exact (h t rfl).2

/-- The label of a break inside a word, as it is written. -/
def bracedLabel (label : Text) : Text :=
  if label.isEmpty then [] else '{' :: (label ++ ['}'])

theorem write_inWord (kind : BreakKind) (label : Option Text) :
    kind.write label true = '~' :: (kind.sign ++ bracedLabel (label.getD [])) := by
  unfold BreakKind.write bracedLabel
  cases hl : label.getD [] <;> simp

/-- A break without a label reads back where no label follows it; one with a
label in braces reads back anywhere. -/
theorem breakLabel_bracedLabel (h : '}' ∉ page)
    (hr : page = [] → ∀ c ∈ rest.head?, BeginsNoLabel c) :
    breakLabel (bracedLabel page ++ rest) = .ok (page, rest)
      ∧ (bracedLabel page ++ rest).head? ≠ some '/' := by
  cases page with
  | nil =>
    refine ⟨@breakLabel_digits rest [] (by simp) fun c hc => ?_, fun hs => ?_⟩
    · exact ⟨(hr rfl c hc).2.2, (hr rfl c hc).1⟩
    · exact (hr rfl '/' hs).2.1 rfl
  | cons c page =>
    have shape : bracedLabel (c :: page) ++ rest = '{' :: (c :: page ++ '}' :: rest) := by
      simp [bracedLabel]
    rw [shape]
    exact ⟨breakLabel_braced h rest, by simp⟩

/-- A break inside a word reads back with the sign that the word goes on. -/
theorem construct_joined_break (hb : n.isBreak = true) (ha : n.Admissible) (hl : '}' ∉ n.label)
    (hr : n.label = [] → ∀ c ∈ rest.head?, BeginsNoLabel c) :
    construct (n.writeIn true ++ rest) = .ok (some ([.continuation, n], rest)) := by
  cases n with
  | lineBreak label =>
    obtain ⟨read, apart⟩ := @breakLabel_bracedLabel (label.getD []) rest hl hr
    have shape : (Node.lineBreak label).writeIn true ++ rest
        = '~' :: '/' :: '/' :: (bracedLabel (label.getD []) ++ rest) :=
      congrArg (· ++ rest) (write_inWord .line label)
    rw [shape, construct_joined_line apart, lineBreakRest, read]
    show Except.ok (some ([Node.continuation, .lineBreak (labelOf (label.getD []))], rest)) = _
    rw [labelOf_getD ha]
  | pageBreak label =>
    obtain ⟨read, -⟩ := @breakLabel_bracedLabel label rest hl hr
    have shape : (Node.pageBreak label).writeIn true ++ rest
        = '~' :: '/' :: '/' :: '/' :: (bracedLabel label ++ rest) :=
      congrArg (· ++ rest) (write_inWord .page (some label))
    rw [shape]
    show some <$> pageBreakRest breakLabel [.continuation] _ = _
    rw [pageBreakRest, read]
    rfl
  | _ => cases hb

/-- A label of digits, or without blanks for a page, needs no braces outside words. -/
theorem write_bare {kind : BreakKind} (h : kind.bareLabel (label.getD []) = true) :
    kind.write label false = kind.sign ++ label.getD [] := by
  unfold BreakKind.write
  cases hl : label.getD [] with
  | nil => simp
  | cons c t => simp [← hl, h]

theorem write_braced {kind : BreakKind} (h : kind.bareLabel (label.getD []) = false) :
    kind.write label false = kind.sign ++ '{' :: (label.getD [] ++ ['}']) := by
  have some : label.getD [] ≠ [] := by
    intro he
    rw [he] at h
    cases kind <;> cases h
  unfold BreakKind.write
  simp [h, some]

/-- The label ends at a brace, or else before the blank that comes next. -/
theorem construct_lineBreak (ha : ∀ t ∈ label, t ≠ [] ∧ '}' ∉ t)
    (hr : ∀ c ∈ rest.head?, isBlank c = true) :
    construct ((Node.lineBreak label).write ++ rest) = .ok (some ([.lineBreak label], rest)) := by
  have reads {t : Text} (h : breakLabel t = .ok (label.getD [], rest)) (ht : t.head? ≠ some '/') :
      construct ('/' :: '/' :: t) = .ok (some ([.lineBreak label], rest)) := by
    rw [construct_line ht, lineBreakRest, h]
    show Except.ok (some ([Node.lineBreak (labelOf (label.getD []))], rest)) = _
    rw [labelOf_getD ha]
  cases hb : BreakKind.line.bareLabel (label.getD []) with
  | true =>
    have digits : ∀ c ∈ label.getD [], Text.isDigit c = true := List.all_eq_true.1 hb
    have apart : (label.getD [] ++ rest).head? ≠ some '/' := by
      cases hl : label.getD [] with
      | nil => exact fun hs => (beginsNoLabel_of_isBlank (hr '/' hs)).2.1 rfl
      | cons c t =>
        intro hs
        cases hs
        exact absurd (digits '/' (by simp [hl])) (by decide)
    have shape : (Node.lineBreak label).write ++ rest = '/' :: '/' :: (label.getD [] ++ rest) :=
      congrArg (· ++ rest) (write_bare hb)
    rw [shape]
    refine reads (breakLabel_digits digits fun c hc => ?_) apart
    obtain ⟨brace, -, digit⟩ := beginsNoLabel_of_isBlank (hr c hc)
    exact ⟨digit, brace⟩
  | false =>
    have shape : (Node.lineBreak label).write ++ rest
        = '/' :: '/' :: '{' :: (label.getD [] ++ '}' :: rest) := by
      show BreakKind.line.write label false ++ rest = _
      rw [write_braced hb]
      simp [BreakKind.sign]
    rw [shape]
    exact reads (breakLabel_braced (not_mem_getD ha) rest) (by simp)

/-- The same for a page, whose bare label may hold a brace. -/
theorem construct_pageBreak (ha : '}' ∉ page ∨ BreakKind.page.bareLabel page = true)
    (hr : ∀ c ∈ rest.head?, isBlank c = true) :
    construct ((Node.pageBreak page).write ++ rest) = .ok (some ([.pageBreak page], rest)) := by
  have reads {t : Text} (h : pageLabel t = .ok (page, rest)) :
      construct ('/' :: '/' :: '/' :: t) = .ok (some ([.pageBreak page], rest)) := by
    show some <$> pageBreakRest pageLabel [] t = _
    rw [pageBreakRest, h]
    rfl
  cases hb : BreakKind.page.bareLabel page with
  | true =>
    have shape : (Node.pageBreak page).write ++ rest = '/' :: '/' :: '/' :: (page ++ rest) :=
      congrArg (· ++ rest) (@write_bare (some page) .page hb)
    rw [shape]
    exact reads (pageLabel_bare hb fun c hc => ⟨hr c hc, ne_of_isBlank (hr c hc) (by decide)⟩)
  | false =>
    have shape : (Node.pageBreak page).write ++ rest
        = '/' :: '/' :: '/' :: '{' :: (page ++ '}' :: rest) := by
      show BreakKind.page.write (some page) false ++ rest = _
      rw [write_braced hb]
      simp [BreakKind.sign]
    rw [shape]
    exact reads (pageLabel_braced (ha.resolve_right (by simp [hb])) rest)

end Breaks

/-! ## 6. Nodes with an end of their own -/

/-- A node that its own signs end reads back alone, whatever follows it. -/
theorem construct_closed {n : Node} (ha : n.Admissible) (hc : n.isClosed = true) (inWord : Bool)
    (rest : Text) : construct (n.writeIn inWord ++ rest) = .ok (some ([n], rest)) := by
  cases n with
  | abbreviation abbr expansion => exact construct_abbreviation ha.1 ha.2 inWord rest
  | gap quantity reading => exact construct_gap quantity ha inWord rest
  | marked mark content => exact construct_marked ha inWord rest
  | entity name => exact construct_entity ha.1 ha.2 inWord rest
  | block kind body => exact construct_block ha inWord rest
  | boundary => rfl
  | _ => cases hc

/-- A break outside a word reads back before a blank or the end. -/
theorem construct_break {n : Node} (hb : n.isBreak = true) (ha : n.Admissible) {rest : Text}
    (hr : ∀ c ∈ rest.head?, isBlank c = true) :
    construct (n.write ++ rest) = .ok (some ([n], rest)) := by
  cases n with
  | lineBreak label => exact construct_lineBreak ha hr
  | pageBreak label => exact construct_pageBreak ha hr
  | _ => cases hb

/-! ## 7. Nothing else is read -/

section Inversion

variable {t rest : Text} {ks before : List Node} {mark : Mark}

/-- What a gap was read from can be written for it again. -/
theorem of_gapRest (h : gapRest t = .ok (ks, rest)) :
    ∃ quantity reading, ks = [.gap quantity reading] ∧ ∀ t ∈ reading, '>' ∉ t := by
  obtain ⟨⟨reading, u⟩, hg, h⟩ := exists_of_bind h
  obtain ⟨u, -, h⟩ := exists_of_bind h
  cases h
  refine ⟨_, reading, rfl, fun r hr => ?_⟩
  have hg : gapReading (Text.span Text.isDigit t).2 = .ok (reading, _) := hg
  unfold gapReading at hg
  split at hg
  · obtain ⟨⟨content, v⟩, hcl, he⟩ := exists_of_bind hg
    cases he
    cases hr
    exact (closedBy_eq_ok_iff.1 hcl).2
  · cases hg
    cases hr

theorem of_markRest (h : markRest mark t = .ok (ks, rest)) :
    ∃ content, ks = [.marked mark content] ∧ Balanced (bracketDepth '}') content := by
  obtain ⟨⟨content, u⟩, hb, h⟩ := exists_of_bind h
  have balanced := (bracketed_eq_ok_iff.1 hb).2
  simp only at h
  split at h
  · obtain ⟨v, -, h⟩ := exists_of_bind h
    cases h
    exact ⟨content, rfl, balanced⟩
  · cases h
    exact ⟨content, rfl, balanced⟩

theorem of_suppliedRest (h : suppliedRest t = .ok (ks, rest)) (ht : t.head? ≠ some '<') :
    ∃ content, ks = [.marked .supplied content] ∧ Mark.supplied.Admits content := by
  obtain ⟨⟨content, u⟩, hc, h⟩ := exists_of_bind h
  cases h
  obtain ⟨rfl, hm⟩ := closedBy_eq_ok_iff.1 hc
  refine ⟨content, rfl, hm, fun hs => ht ?_⟩
  rw [List.head?_append, hs]
  rfl

theorem of_abbreviationRest (h : abbreviationRest t = .ok (ks, rest)) :
    ∃ abbr expansion, ks = [.abbreviation abbr expansion]
      ∧ (Node.abbreviation abbr expansion).Admissible := by
  obtain ⟨⟨abbr, u⟩, ha, h⟩ := exists_of_bind h
  obtain ⟨v, -, h⟩ := exists_of_bind h
  obtain ⟨⟨expansion, w⟩, he, h⟩ := exists_of_bind h
  cases h
  exact ⟨abbr, expansion, rfl, (bracketed_eq_ok_iff.1 ha).2, (bracketed_eq_ok_iff.1 he).2⟩

theorem of_lineBreakRest (h : lineBreakRest before t = .ok (ks, rest)) :
    ∃ label, ks = before ++ [.lineBreak label] ∧ (Node.lineBreak label).Admissible := by
  obtain ⟨⟨label, u⟩, hl, h⟩ := exists_of_bind h
  cases h
  refine ⟨labelOf label, rfl, fun t ht => ?_⟩
  unfold labelOf at ht
  split at ht
  · cases ht
  · next hne =>
    cases ht
    exact ⟨by simpa using hne, not_mem_of_breakLabel hl⟩

/-- A label that was read can be written: it ended at a brace or a blank. -/
theorem of_pageBreakRest {label : Text → Except LexFault (Text × Text)}
    (hl : ∀ {l r}, label t = .ok (l, r) → (Node.pageBreak l).Admissible)
    (h : pageBreakRest label before t = .ok (ks, rest)) :
    ∃ l, ks = before ++ [.pageBreak l] ∧ (Node.pageBreak l).Admissible := by
  obtain ⟨⟨l, u⟩, hr, h⟩ := exists_of_bind h
  cases h
  exact ⟨l, rfl, hl hr⟩

/-- What the construct at the start of a text is read as: one node, or a break
after the sign that the word goes on. -/
def ReadAs (first : Option Char) (ks : List Node) : Prop :=
  ∃ n : Node, n.Admissible ∧ n.isText = false
    ∧ (ks = [n] ∧ n ≠ .continuation ∧ n.write.head? = first
      ∨ ks = [.continuation, n] ∧ n.isBreak = true ∧ first = some '~')

theorem head?_write_break (kind : BreakKind) (label : Option Text) :
    (kind.write label false).head? = some '/' := by
  have sign : kind.sign.head? = some '/' := by cases kind <;> rfl
  unfold BreakKind.write
  dsimp only
  rw [if_neg Bool.false_ne_true]
  split
  · exact sign
  · split
    · rw [List.head?_append, sign]
      rfl
    · rw [List.append_assoc, List.head?_append, sign]
      rfl

/-- A block and an abbreviation begin with a point, and neither is text. -/
theorem readAs_of_dotted (h : dotted t = .ok (some (ks, rest))) : ReadAs (some '.') ks := by
  unfold dotted at h
  split at h
  · next kind u hk =>
    obtain ⟨⟨body, v⟩, hb, h⟩ := exists_of_bind h
    cases h
    exact ⟨.block kind body, (braced_eq_ok_iff.1 hb).2, rfl, .inl ⟨rfl, nofun, rfl⟩⟩
  · split at h
    · obtain ⟨⟨ms, v⟩, hr, he⟩ := exists_of_map h
      cases he
      obtain ⟨abbr, expansion, rfl, ha⟩ := of_abbreviationRest hr
      exact ⟨.abbreviation abbr expansion, ha, rfl, .inl ⟨rfl, nofun, rfl⟩⟩
    · cases h

theorem readAs_of_markRest (hm : mark ≠ .supplied) (h : markRest mark t = .ok (ks, rest)) :
    ReadAs mark.opening.head? ks := by
  obtain ⟨content, rfl, hb⟩ := of_markRest h
  refine ⟨.marked mark content, ?_, rfl, .inl ⟨rfl, nofun, ?_⟩⟩
  · cases mark with
    | supplied => exact absurd rfl hm
    | _ => exact hb
  · cases mark <;> rfl

theorem readAs_of_lineBreakRest (h : lineBreakRest before t = .ok (ks, rest)) {first : Option Char}
    (hf : before = [] ∧ first = some '/' ∨ before = [.continuation] ∧ first = some '~') :
    ReadAs first ks := by
  obtain ⟨label, rfl, ha⟩ := of_lineBreakRest h
  refine ⟨.lineBreak label, ha, rfl, ?_⟩
  rcases hf with ⟨rfl, rfl⟩ | ⟨rfl, rfl⟩
  · exact .inl ⟨rfl, nofun, head?_write_break .line label⟩
  · exact .inr ⟨rfl, rfl, rfl⟩

theorem readAs_of_pageBreakRest {label : Text → Except LexFault (Text × Text)}
    (hl : ∀ {l r}, label t = .ok (l, r) → (Node.pageBreak l).Admissible)
    (h : pageBreakRest label before t = .ok (ks, rest)) {first : Option Char}
    (hf : before = [] ∧ first = some '/' ∨ before = [.continuation] ∧ first = some '~') :
    ReadAs first ks := by
  obtain ⟨l, rfl, ha⟩ := of_pageBreakRest hl h
  refine ⟨.pageBreak l, ha, rfl, ?_⟩
  rcases hf with ⟨rfl, rfl⟩ | ⟨rfl, rfl⟩
  · exact .inl ⟨rfl, nofun, head?_write_break .page (some l)⟩
  · exact .inr ⟨rfl, rfl, rfl⟩

/-- Every construct is read as an admissible node that is written with the same
first character. -/
theorem readAs_of_construct (h : construct t = .ok (some (ks, rest))) : ReadAs t.head? ks := by
  unfold construct at h
  split at h
  · exact readAs_of_pageBreakRest of_pageLabel (of_map_some h) (.inl ⟨rfl, rfl⟩)
  · exact readAs_of_lineBreakRest (of_map_some h) (.inl ⟨rfl, rfl⟩)
  · exact readAs_of_dotted h
  · obtain ⟨quantity, reading, rfl, ha⟩ := of_gapRest (of_map_some h)
    exact ⟨.gap quantity reading, ha, rfl, .inl ⟨rfl, nofun, rfl⟩⟩
  · cases h
  · next u hu =>
    have single : u.head? ≠ some '<' := by
      intro hs
      obtain ⟨v, rfl⟩ := List.head?_eq_some_iff.1 hs
      exact hu v rfl
    obtain ⟨content, rfl, ha⟩ := of_suppliedRest (of_map_some h) single
    exact ⟨.marked .supplied content, ha, rfl, .inl ⟨rfl, nofun, rfl⟩⟩
  · exact readAs_of_markRest (by decide) (of_map_some h)
  · exact readAs_of_markRest (by decide) (of_map_some h)
  · exact readAs_of_markRest (by decide) (of_map_some h)
  · exact readAs_of_markRest (by decide) (of_map_some h)
  · obtain ⟨⟨name, u⟩, hn, he⟩ := Option.map_eq_some_iff.1 (Except.ok.inj h)
    cases he
    exact ⟨.entity name, (entityName?_eq_some_iff.1 hn).2, rfl, .inl ⟨rfl, nofun, rfl⟩⟩
  · exact readAs_of_pageBreakRest (fun hl => .inl (not_mem_of_breakLabel hl)) (of_map_some h)
      (.inr ⟨rfl, rfl⟩)
  · exact readAs_of_lineBreakRest (of_map_some h) (.inr ⟨rfl, rfl⟩)
  · cases h
    exact ⟨.compoundJoin, trivial, rfl, .inl ⟨rfl, nofun, rfl⟩⟩
  · cases h
    exact ⟨.boundary, trivial, rfl, .inl ⟨rfl, nofun, rfl⟩⟩
  · cases h

end Inversion

end Lexer

end Transcription
