/-
Transcription.Proofs.WrittenJson — a data value reads back from its written form,
on one line and with any indent.

The reader takes from a text what the printer has put there and leaves the rest,
if the rest cannot go on in a number (`Closes`). For strings this is
`readString?_written`, one character at a time; for integers `readsBack_integer`.

Arrays and objects are read by three functions that call each other with less and
less fuel. `ReadsAt` says of all three that some fuel is enough; it is carried along
the fuel (`readsAt`), and the length of the written text bounds what is needed.

**`read?_write`** asks two things of a value: that its numbers read back, which
integers do, and that no object has a key twice.
-/
import Transcription.Json.Printer
import Transcription.Json.Reader
import Transcription.Proofs.WrittenNode

namespace Transcription.Json

variable {t u rest gap : Text} {c : Char} {fuel depth : Nat} {indent : Option Nat}

/-! ## 1. Blanks and separators -/

theorem skipGaps_of_not (h : isGap c = false) (t : Text) : skipGaps (c :: t) = c :: t := by
  simp [skipGaps, h]

theorem skipGaps_append (hg : ∀ c ∈ gap, isGap c = true) (hc : isGap c = false) (t : Text) :
    skipGaps (gap ++ c :: t) = c :: t := by
  induction gap with
  | nil => exact skipGaps_of_not hc t
  | cons d gap ih =>
    obtain ⟨hd, hg⟩ := List.forall_mem_cons.1 hg
    have step : skipGaps (d :: (gap ++ c :: t)) = skipGaps (gap ++ c :: t) := by
      simp [skipGaps, hd]
    rw [List.cons_append, step, ih hg]

theorem isGap_lineStart (indent : Option Nat) (depth : Nat) :
    ∀ c ∈ lineStart indent depth, isGap c = true := by
  cases indent with
  | none => nofun
  | some width =>
    refine List.forall_mem_cons.2 ⟨by decide, fun c hc => ?_⟩
    rw [(List.mem_replicate.1 hc).2]
    decide

/-- Between two items stands a comma, and then only blanks. -/
theorem exists_itemSeparator (indent : Option Nat) (depth : Nat) :
    ∃ gap, itemSeparator indent depth = ',' :: gap ∧ ∀ c ∈ gap, isGap c = true := by
  cases indent with
  | none => exact ⟨[' '], rfl, Text.forall_of_check (by decide)⟩
  | some width => exact ⟨lineStart (some width) depth, rfl, isGap_lineStart _ _⟩

/-- What may follow a value: nothing, or a sign that goes on in no number. -/
def Closes (rest : Text) : Prop :=
  ∀ c ∈ rest.head?, c ∈ [',', ']', '}'] ∨ isGap c = true

theorem closes_nil : Closes [] :=
  nofun

theorem closes_cons (h : c ∈ [',', ']', '}'] ∨ isGap c = true) (t : Text) : Closes (c :: t) := by
  rintro d ⟨⟩
  exact h

theorem closes_gap (hg : ∀ c ∈ gap, isGap c = true) (hc : c ∈ [',', ']', '}']) (t : Text) :
    Closes (gap ++ c :: t) := by
  cases gap with
  | nil => exact closes_cons (.inl hc) t
  | cons d gap => exact closes_cons (.inr (hg d List.mem_cons_self)) _

/-- No sign that may follow a value goes on in a number. -/
theorem Closes.stops (h : Closes rest) :
    ∀ c ∈ rest.head?, Text.isDigit c = false ∧ c ≠ '.' ∧ c ≠ 'e' ∧ c ≠ 'E' := by
  intro c hc
  have signs : ∀ d ∈ [',', ']', '}', ' ', '\n', '\t', '\r'],
      Text.isDigit d = false ∧ d ≠ '.' ∧ d ≠ 'e' ∧ d ≠ 'E' := Text.forall_of_check (by decide)
  refine signs c ?_
  rcases h c hc with hm | hgap
  · simp only [List.mem_cons, List.not_mem_nil, or_false] at hm ⊢
    rcases hm with rfl | rfl | rfl <;> simp
  · simp only [isGap, Bool.or_eq_true, decide_eq_true_eq] at hgap
    rcases hgap with ((rfl | rfl) | rfl) | rfl <;> simp

/-! ## 2. Strings -/

/-- The four digits of a control character read back. -/
theorem hexFour?_hexDigits : ∀ n < 0x20, ∀ rest,
    hexFour? (Text.hexDigits 4 n ++ rest) = some (n, rest) := by
  have digits : ∀ n < 0x20, ∃ a b c d, Text.hexDigits 4 n = [a, b, c, d]
      ∧ hexFour? [a, b, c, d] = some (n, []) := by
    intro n hn
    refine ⟨_, _, _, _, rfl, ?_⟩
    revert n
    decide
  intro n hn rest
  obtain ⟨a, b, c, d, he, hr⟩ := digits n hn
  rw [he]
  simp only [hexFour?, List.cons_append, List.nil_append, Option.bind_eq_bind] at hr ⊢
  simp only [Option.bind_eq_some_iff, Option.some.injEq, Prod.mk.injEq] at hr ⊢
  obtain ⟨x, hx, y, hy, z, hz, w, hw, hn, -⟩ := hr
  exact ⟨x, hx, y, hy, z, hz, w, hw, hn, trivial⟩

theorem readUnit?_hexDigits {n : Nat} (hn : n < 0x20) (rest : Text) :
    readUnit? (Text.hexDigits 4 n ++ rest) = some (Char.ofNat n, rest) := by
  have low : isHighUnit n = false ∧ isLowUnit n = false := by
    simp only [isHighUnit, isLowUnit, Bool.and_eq_false_imp, decide_eq_true_eq]
    omega
  simp [readUnit?, hexFour?_hexDigits n hn, unitChar, low]

/-- A character with a letter or mark of its own after the stroke. -/
theorem readString?_stroke {d : Char} (h : escapeChar? c = some d) (t : Text) :
    readString? (fuel + 1) ('\\' :: c :: t)
      = (readString? fuel t).map fun (s, r) => (d :: s, r) := by
  have notUnit : c ≠ 'u' := by
    have noLetter : escapeChar? 'u' = none := by decide
    rintro rfl
    rw [noLetter] at h
    cases h
  simp only [readString?, h, Option.bind_eq_bind, Option.bind_some]
  cases readString? fuel t <;> rfl

/-- One character of a string, whatever follows it. -/
theorem readString?_writeChar (c : Char) (t : Text) :
    readString? (fuel + 1) (writeChar c ++ t)
      = (readString? fuel t).map fun (s, r) => (c :: s, r) := by
  have letters : ∀ entry ∈ lettered, escapeChar? entry.2 = some entry.1 := by decide
  unfold writeChar
  split
  · next hc =>
    exact readString?_stroke (by rcases hc with rfl | rfl <;> decide) t
  · next plain =>
    obtain ⟨quote, stroke⟩ := not_or.1 plain
    split
    · next l hl =>
      have found : (c, l) ∈ lettered := by
        obtain ⟨before, after, he, -⟩ := List.lookup_eq_some_iff.1 hl
        simp [he]
      exact readString?_stroke (letters _ found) t
    · split
      · next control =>
        have unit := readUnit?_hexDigits control t
        rw [Char.ofNat_toNat] at unit
        simp only [List.cons_append, readString?, unit, Option.bind_eq_bind, Option.bind_some]
        cases readString? fuel t <;> rfl
      · next shown =>
        rw [List.singleton_append, readString?, if_neg (not_or.2 ⟨shown, stroke⟩)]
        · cases readString? fuel t <;> rfl
        · exact quote
        · exact fun _ h => absurd h stroke
        · exact fun _ _ h => absurd h stroke

/-- A string reads back up to its closing quotation mark. -/
theorem readString?_written (s : Text) (rest : Text) :
    ∀ fuel, s.length < fuel →
      readString? fuel (s.flatMap writeChar ++ '\x22' :: rest) = some (s, rest) := by
  induction s with
  | nil =>
    rintro (_ | fuel) hf
    · cases hf
    · rfl
  | cons c s ih =>
    rintro (_ | fuel) hf
    · cases hf
    · rw [List.flatMap_cons, List.append_assoc, readString?_writeChar,
        ih fuel (by simpa using hf)]
      rfl

theorem length_le_flatMap_writeChar (s : Text) : s.length ≤ (s.flatMap writeChar).length := by
  have one (c : Char) : 1 ≤ (writeChar c).length := by
    unfold writeChar
    repeat' split
    all_goals simp
  induction s with
  | nil => exact Nat.le_refl 0
  | cons c s ih =>
    have := one c
    simp only [List.flatMap_cons, List.length_append, List.length_cons]
    omega

/-- What follows the opening quotation mark is fuel enough. -/
theorem readString?_writeString (s rest : Text) :
    let body := s.flatMap writeChar ++ '\x22' :: rest
    readString? (body.length + 1) body = some (s, rest) := by
  refine readString?_written s rest _ ?_
  have := length_le_flatMap_writeChar s
  simp only [List.length_append]
  omega

/-! ## 3. Numbers -/

/-- A number reads back from its written form, whatever may follow a value. -/
structure NumberReadsBack (n : Number) : Prop where
  begins : ∀ c ∈ n.write.head?, isGap c = false ∧ c ∉ ['\x22', '[', ']', '{']
  nonempty : n.write ≠ []
  reads : ∀ rest, Closes rest → readAtom? (n.write ++ rest) = some (.number n, rest)

theorem ofNat_head? (n : Nat) (h : n ≠ 0) : ∀ c ∈ (Text.ofNat n).head?, c ≠ '0' := by
  induction n using Nat.strongRecOn with
  | ind n ih =>
    intro c hc
    rw [Text.ofNat] at hc
    split at hc
    · next hn =>
      have digits : ∀ m < 10, m ≠ 0 → Text.digit m ≠ '0' := by decide
      rw [← Option.some.inj hc]
      exact digits n hn h
    · next hn =>
      rw [List.head?_append, Option.or_of_isSome (by simp [Text.ofNat_ne_nil])] at hc
      exact ih (n / 10) (by omega) (by omega) c hc

theorem readWhole?_ofNat (n : Nat) (hr : ∀ c ∈ rest.head?, Text.isDigit c = false) :
    Number.readWhole? (Text.ofNat n ++ rest) = some (Text.ofNat n, rest) := by
  by_cases zero : n = 0
  · subst zero
    have numeral : Text.ofNat 0 = ['0'] := by rw [Text.ofNat]; rfl
    rw [numeral]
    rfl
  · have cut := Lexer.span_append_stop (Text.isDigit_of_ofNat n) hr
    have head := ofNat_head? n zero
    cases hd : Text.ofNat n with
    | nil => exact absurd hd (Text.ofNat_ne_nil n)
    | cons c digits =>
      rw [hd] at cut head
      have first : c ≠ '0' := head c rfl
      rw [List.cons_append] at cut ⊢
      rw [Number.readWhole?.eq_def]
      split
      · next he => exact absurd (List.cons.inj he).1 first
      · rw [cut]

theorem readUnsigned?_ofNat (negative : Bool) (n : Nat) (hr : Closes rest) :
    Number.readUnsigned? negative (Text.ofNat n ++ rest)
      = some (.integer (if negative then -(n : Int) else n), rest) := by
  have stops := hr.stops
  have fraction : Number.readFraction rest = ([], rest) := by
    unfold Number.readFraction
    split
    · next t => exact absurd rfl (stops '.' rfl).2.1
    · rfl
  have power : Number.readPower rest = (none, rest) := by
    cases rest with
    | nil => rfl
    | cons c t =>
      obtain ⟨-, -, lower, upper⟩ := stops c rfl
      simp [Number.readPower, lower, upper]
  rw [Number.readUnsigned?, readWhole?_ofNat n fun c hc => (stops c hc).1]
  simp [fraction, power, Text.digitsValue_ofNat]

/-- Where no word stands, a number is read. -/
theorem readAtom?_of_noWord (h : ∀ word ∈ wordValues.map Prod.fst, Text.after? word t = none) :
    readAtom? t = (Number.read? t).map fun (n, rest) => (.number n, rest) := by
  unfold readAtom?
  split
  · next found hf =>
    obtain ⟨entry, hm, he⟩ := List.exists_of_findSome?_eq_some hf
    simp [h entry.1 (List.mem_map_of_mem hm)] at he
  · rfl

/-- No word begins like a number without a sign. -/
theorem readAtom?_of_isDigit (hc : Text.isDigit c = true) (t : Text) :
    readAtom? (c :: t) = (Number.read? (c :: t)).map fun (n, rest) => (.number n, rest) := by
  have others : ∀ d ∈ ['n', 't', 'f', 'N', 'I', '-'], Text.isDigit d = false :=
    Text.forall_of_check (by decide)
  have differs (d : Char) (hd : d ∈ ['n', 't', 'f', 'N', 'I', '-']) (word : Text) :
      Text.after? (d :: word) (c :: t) = none := by
    have ne : d ≠ c := by
      rintro rfl
      rw [others d hd] at hc
      cases hc
    rw [Text.after?, if_neg ne]
  refine readAtom?_of_noWord ?_
  simp only [wordValues, List.map_cons, List.map_nil, List.forall_mem_cons]
  refine ⟨?_, ?_, ?_, ?_, ?_, ?_, List.forall_mem_nil _⟩ <;> exact differs _ (by decide) _

/-- Nor does one begin like a number with a sign. -/
theorem readAtom?_minus (hc : Text.isDigit c = true) (t : Text) :
    readAtom? ('-' :: c :: t)
      = (Number.read? ('-' :: c :: t)).map fun (n, rest) => (.number n, rest) := by
  have digit : 'I' ≠ c := by
    rintro rfl
    revert hc
    decide
  have infinity : Text.after? "-Infinity" ('-' :: c :: t) = none := by
    show Text.after? ('-' :: 'I' :: "nfinity".toList) ('-' :: c :: t) = none
    rw [Text.after?, if_pos rfl, Text.after?, if_neg digit]
  refine readAtom?_of_noWord ?_
  simp only [wordValues, List.map_cons, List.map_nil, List.forall_mem_cons]
  exact ⟨rfl, rfl, rfl, rfl, rfl, infinity, List.forall_mem_nil _⟩

theorem exists_ofNat (n : Nat) :
    ∃ c digits, Text.ofNat n = c :: digits ∧ Text.isDigit c = true := by
  have digits := Text.isDigit_of_ofNat n
  cases hd : Text.ofNat n with
  | nil => exact absurd hd (Text.ofNat_ne_nil n)
  | cons c more => exact ⟨c, more, rfl, digits c (by simp [hd])⟩

/-- No digit is read as anything but a number. -/
theorem begins_of_isDigit (hc : Text.isDigit c = true) :
    isGap c = false ∧ c ∉ ['\x22', '[', ']', '{'] := by
  have others : ∀ d ∈ [' ', '\n', '\t', '\r', '\x22', '[', ']', '{'],
      Text.isDigit d = false := Text.forall_of_check (by decide)
  have ne (d : Char) (hd : Text.isDigit d = false) : c ≠ d := by
    rintro rfl
    rw [hd] at hc
    cases hc
  simp only [List.forall_mem_cons] at others
  obtain ⟨space, feed, tab, ret, quote, opens, closes, brace, -⟩ := others
  simp [isGap, ne _ space, ne _ feed, ne _ tab, ne _ ret, ne _ quote, ne _ opens, ne _ closes,
    ne _ brace]

/-- An integer of any size reads back. -/
theorem readsBack_integer (n : Int) : NumberReadsBack (.integer n) := by
  cases n with
  | ofNat n =>
    obtain ⟨c, digits, hd, hc⟩ := exists_ofNat n
    have written : (Number.integer (.ofNat n)).write = Text.ofNat n := rfl
    refine ⟨?_, ?_, fun rest hr => ?_⟩
    · rw [written, hd]
      rintro _ ⟨⟩
      exact begins_of_isDigit hc
    · rw [written]
      exact Text.ofNat_ne_nil n
    · have unsigned := readUnsigned?_ofNat false n hr
      have noSign : c ≠ '-' := by
        rintro rfl
        revert hc
        decide
      rw [written, hd, List.cons_append] at *
      rw [readAtom?_of_isDigit hc, Number.read?.eq_def]
      split
      · next he => exact absurd (List.cons.inj he).1 noSign
      · rw [unsigned]
        rfl
  | negSucc n =>
    obtain ⟨c, digits, hd, hc⟩ := exists_ofNat (n + 1)
    have written : (Number.integer (.negSucc n)).write = '-' :: Text.ofNat (n + 1) := rfl
    refine ⟨?_, ?_, fun rest hr => ?_⟩
    · rw [written]
      rintro _ ⟨⟩
      decide
    · rw [written]
      exact List.cons_ne_nil _ _
    · have unsigned := readUnsigned?_ofNat true (n + 1) hr
      rw [written, hd, List.cons_append, List.cons_append] at *
      rw [readAtom?_minus hc, Number.read?, unsigned]
      rfl

/-! ## 4. Values -/

/-- A value that a text can hold: its numbers read back, and no object has a key
twice. -/
inductive Proper : Json → Prop where
  | null : Proper .null
  | bool {b : Bool} : Proper (.bool b)
  | number {n : Number} : NumberReadsBack n → Proper (.number n)
  | string {s : Text} : Proper (.string s)
  | array {items : List Json} : (∀ j ∈ items, Proper j) → Proper (.array items)
  | object {members : List (Text × Json)} : (members.map Prod.fst).Nodup →
      (∀ m ∈ members, Proper m.2) → Proper (.object members)

theorem proper_int (n : Int) : Proper (.int n) :=
  .number (readsBack_integer n)

section Values

variable {j item : Json} {items : List Json} {key : Text} {members : List (Text × Json)}

/-- A written value begins with no blank and does not end an array. -/
theorem exists_head (h : Proper j) (indent : Option Nat) (depth : Nat) :
    ∃ c t, writeAt indent depth j = c :: t ∧ isGap c = false ∧ c ≠ ']' := by
  cases h with
  | null => exact ⟨'n', _, rfl, by decide, by decide⟩
  | @bool b =>
    cases b with
    | true => exact ⟨'t', _, rfl, by decide, by decide⟩
    | false => exact ⟨'f', _, rfl, by decide, by decide⟩
  | @number n hn =>
    have begins := hn.begins
    cases hw : n.write with
    | nil => exact absurd hw hn.nonempty
    | cons c t =>
      rw [hw] at begins
      obtain ⟨solid, others⟩ := begins c rfl
      refine ⟨c, t, hw, solid, ?_⟩
      rintro rfl
      exact others (by decide)
  | string => exact ⟨'\x22', _, rfl, by decide, by decide⟩
  | @array items _ => cases items <;> exact ⟨'[', _, rfl, by decide, by decide⟩
  | @object members _ _ => cases members <;> exact ⟨'{', _, rfl, by decide, by decide⟩

/-! ### One step of the reader -/

theorem readValue?_atom (h : c ∉ ['\x22', '[', ']', '{']) (t : Text) :
    readValue? (fuel + 1) (c :: t) = readAtom? (c :: t) := by
  simp only [List.mem_cons, List.not_mem_nil, or_false, not_or] at h
  obtain ⟨quote, bracket, -, brace⟩ := h
  rw [readValue?]
  · exact fun _ he => absurd (List.cons.inj he).1 quote
  · exact fun _ he => absurd (List.cons.inj he).1 bracket
  · exact fun _ he => absurd (List.cons.inj he).1 brace

theorem readValue?_array (hs : skipGaps t = c :: u) (hc : c ≠ ']') :
    readValue? (fuel + 1) ('[' :: t)
      = (readItems? fuel (c :: u)).map fun (items, r) => (.array items, r) := by
  rw [readValue?, hs]
  split
  · next he => exact absurd (List.cons.inj he).1 hc
  · rfl

theorem readValue?_object (hs : skipGaps t = '\x22' :: u) :
    readValue? (fuel + 1) ('{' :: t)
      = (readMembers? fuel ('\x22' :: u)).map fun (members, r) =>
          (.object (Table.ofEntries members), r) := by
  rw [readValue?, hs]
  rfl

/-- The last item of an array. -/
theorem readItems?_last (hv : readValue? fuel t = some (j, u)) (hs : skipGaps u = ']' :: rest) :
    readItems? (fuel + 1) t = some ([j], rest) := by
  simp [readItems?, hv, hs]

/-- An item before others. -/
theorem readItems?_more (hv : readValue? fuel t = some (j, u)) (hs : skipGaps u = ',' :: rest) :
    readItems? (fuel + 1) t
      = (readItems? fuel (skipGaps rest)).map fun (items, r) => (j :: items, r) := by
  simp only [readItems?, hv, hs, Option.bind_eq_bind, Option.bind_some]
  cases readItems? fuel (skipGaps rest) <;> rfl

/-- The text of a member in front of what follows it. -/
def memberText (indent : Option Nat) (depth : Nat) (key : Text) (value : Json) (after : Text) :
    Text :=
  writeString key ++ (':' :: ' ' :: (writeAt indent depth value ++ after))

theorem memberText_eq (indent : Option Nat) (depth : Nat) (key : Text) (j : Json) (t : Text) :
    memberText indent depth key j t
      = '\x22' :: (key.flatMap writeChar
        ++ '\x22' :: ':' :: ' ' :: (writeAt indent depth j ++ t)) := by
  simp [memberText, writeString]

/-- The blank before the value of a member. -/
theorem skipGaps_value (h : Proper j) :
    skipGaps (' ' :: (writeAt indent depth j ++ t)) = writeAt indent depth j ++ t := by
  obtain ⟨c, v, hw, solid, -⟩ := exists_head h indent depth
  rw [hw]
  have blank : ∀ c ∈ [' '], isGap c = true := Text.forall_of_check (by decide)
  exact skipGaps_append blank solid _

/-- The last member of an object. -/
theorem readMembers?_last (h : Proper j)
    (hv : readValue? fuel (writeAt indent depth j ++ t) = some (j, t))
    (hs : skipGaps t = '}' :: rest) :
    readMembers? (fuel + 1) (memberText indent depth key j t) = some ([(key, j)], rest) := by
  have colon := skipGaps_of_not (c := ':') (by decide) (' ' :: (writeAt indent depth j ++ t))
  rw [memberText_eq, readMembers?]
  simp only [readString?_writeString, colon, skipGaps_value h, hv, hs, Option.bind_eq_bind,
    Option.bind_some]

/-- A member before others. -/
theorem readMembers?_more (h : Proper j)
    (hv : readValue? fuel (writeAt indent depth j ++ t) = some (j, t))
    (hs : skipGaps t = ',' :: rest) :
    readMembers? (fuel + 1) (memberText indent depth key j t)
      = (readMembers? fuel (skipGaps rest)).map fun (members, r) => ((key, j) :: members, r) := by
  have colon := skipGaps_of_not (c := ':') (by decide) (' ' :: (writeAt indent depth j ++ t))
  rw [memberText_eq, readMembers?]
  simp only [readString?_writeString, colon, skipGaps_value h, hv, hs, Option.bind_eq_bind,
    Option.bind_some]
  cases readMembers? fuel (skipGaps rest) <;> rfl

/-! ### All steps -/

/-- Some fuel is enough for all that is written with at most as many characters. -/
structure ReadsAt (indent : Option Nat) (fuel : Nat) : Prop where
  value : ∀ {j : Json} {depth : Nat} {rest : Text}, Proper j → Closes rest →
    (writeAt indent depth j).length ≤ fuel →
    readValue? fuel (writeAt indent depth j ++ rest) = some (j, rest)
  items : ∀ {item : Json} {items : List Json} {depth : Nat} {gap rest : Text},
    (∀ j ∈ item :: items, Proper j) → (∀ c ∈ gap, isGap c = true) →
    (writeAt indent depth item).length + (writeItems indent depth items).length < fuel →
    readItems? fuel (writeAt indent depth item ++ (writeItems indent depth items
      ++ (gap ++ ']' :: rest))) = some (item :: items, rest)
  members : ∀ {key : Text} {value : Json} {members : List (Text × Json)} {depth : Nat}
    {gap rest : Text},
    (∀ m ∈ (key, value) :: members, Proper m.2) → (∀ c ∈ gap, isGap c = true) →
    (writeAt indent depth value).length + (writeMembers indent depth members).length < fuel →
    readMembers? fuel (memberText indent depth key value (writeMembers indent depth members
      ++ (gap ++ '}' :: rest))) = some ((key, value) :: members, rest)

theorem readsAt_zero : ReadsAt indent 0 where
  value {j depth rest} h _ hf := by
    obtain ⟨c, t, hw, -⟩ := exists_head h indent depth
    rw [hw] at hf
    cases hf
  items _ _ hf := by cases hf
  members _ _ hf := by cases hf

/-- After an item come the next one or the end of the array. -/
theorem closes_writeItems (hg : ∀ c ∈ gap, isGap c = true) (items : List Json) (rest : Text) :
    Closes (writeItems indent depth items ++ (gap ++ ']' :: rest)) := by
  cases items with
  | nil => exact closes_gap hg (by decide) rest
  | cons item items =>
    obtain ⟨blanks, hs, -⟩ := exists_itemSeparator indent depth
    rw [writeItems, hs]
    exact closes_cons (.inl (by decide)) _

theorem closes_writeMembers (hg : ∀ c ∈ gap, isGap c = true) (members : List (Text × Json))
    (rest : Text) : Closes (writeMembers indent depth members ++ (gap ++ '}' :: rest)) := by
  cases members with
  | nil => exact closes_gap hg (by decide) rest
  | cons m members =>
    obtain ⟨blanks, hs, -⟩ := exists_itemSeparator indent depth
    rw [writeMembers, hs]
    exact closes_cons (.inl (by decide)) _

theorem readsAt_items (ih : ReadsAt indent fuel) (h : ∀ j ∈ item :: items, Proper j)
    (hg : ∀ c ∈ gap, isGap c = true)
    (hf : (writeAt indent depth item).length + (writeItems indent depth items).length < fuel + 1) :
    readItems? (fuel + 1) (writeAt indent depth item ++ (writeItems indent depth items
      ++ (gap ++ ']' :: rest))) = some (item :: items, rest) := by
  obtain ⟨hi, his⟩ := List.forall_mem_cons.1 h
  have closes : Closes (writeItems indent depth items ++ (gap ++ ']' :: rest)) :=
    closes_writeItems hg items rest
  have fits : (writeAt indent depth item).length ≤ fuel := by omega
  have first := ih.value hi closes fits
  cases items with
  | nil => exact readItems?_last first (skipGaps_append hg (by decide) rest)
  | cons next items =>
    obtain ⟨blanks, hs, hb⟩ := exists_itemSeparator indent depth
    obtain ⟨c, t, hw, solid, -⟩ := exists_head (his next List.mem_cons_self) indent depth
    have shorter : (writeAt indent depth next).length + (writeItems indent depth items).length
        < fuel := by
      simp only [writeItems, hs, List.length_append, List.length_cons] at hf
      omega
    have between : writeItems indent depth (next :: items) ++ (gap ++ ']' :: rest)
        = ',' :: (blanks ++ (writeAt indent depth next ++ (writeItems indent depth items
          ++ (gap ++ ']' :: rest)))) := by
      simp [writeItems, hs]
    have blank : skipGaps (blanks ++ (writeAt indent depth next ++ (writeItems indent depth items
        ++ (gap ++ ']' :: rest)))) = writeAt indent depth next ++ (writeItems indent depth items
        ++ (gap ++ ']' :: rest)) := by
      rw [hw]
      exact skipGaps_append hb solid _
    have comma := (congrArg skipGaps between).trans (skipGaps_of_not (by decide) _)
    rw [readItems?_more first comma, blank, ih.items his hg shorter]
    rfl

theorem readsAt_members {value : Json} (ih : ReadsAt indent fuel)
    (h : ∀ m ∈ (key, value) :: members, Proper m.2) (hg : ∀ c ∈ gap, isGap c = true)
    (hf : (writeAt indent depth value).length + (writeMembers indent depth members).length
      < fuel + 1) :
    readMembers? (fuel + 1) (memberText indent depth key value
      (writeMembers indent depth members ++ (gap ++ '}' :: rest)))
      = some ((key, value) :: members, rest) := by
  obtain ⟨hv, hms⟩ := List.forall_mem_cons.1 h
  have closes : Closes (writeMembers indent depth members ++ (gap ++ '}' :: rest)) :=
    closes_writeMembers hg members rest
  have fits : (writeAt indent depth value).length ≤ fuel := by omega
  have first := ih.value hv closes fits
  cases members with
  | nil => exact readMembers?_last hv first (skipGaps_append hg (by decide) rest)
  | cons next members =>
    obtain ⟨name, value'⟩ := next
    obtain ⟨blanks, hs, hb⟩ := exists_itemSeparator indent depth
    have shorter : (writeAt indent depth value').length
        + (writeMembers indent depth members).length < fuel := by
      simp only [writeMembers, hs, List.length_append, List.length_cons] at hf
      omega
    have between : writeMembers indent depth ((name, value') :: members) ++ (gap ++ '}' :: rest)
        = ',' :: (blanks ++ memberText indent depth name value'
          (writeMembers indent depth members ++ (gap ++ '}' :: rest))) := by
      simp [writeMembers, memberText, hs]
    have blank (after : Text) : skipGaps (blanks ++ memberText indent depth name value' after)
        = memberText indent depth name value' after :=
      skipGaps_append hb (by decide) _
    have comma := (congrArg skipGaps between).trans (skipGaps_of_not (by decide) _)
    rw [readMembers?_more hv first comma, blank, ih.members hms hg shorter]
    rfl

theorem readsAt_number {n : Number} (hn : NumberReadsBack n) (hr : Closes rest) :
    readValue? (fuel + 1) (n.write ++ rest) = some (.number n, rest) := by
  have begins := hn.begins
  have reads := hn.reads rest hr
  cases hw : n.write with
  | nil => exact absurd hw hn.nonempty
  | cons c t =>
    rw [hw] at begins reads
    rw [List.cons_append] at reads ⊢
    rw [readValue?_atom (begins c rfl).2, reads]

theorem readsAt_array (ih : ReadsAt indent fuel) (hi : ∀ j ∈ items, Proper j)
    (hf : (writeAt indent depth (.array items)).length ≤ fuel + 1) :
    readValue? (fuel + 1) (writeAt indent depth (.array items) ++ rest)
      = some (.array items, rest) := by
  cases items with
  | nil => rfl
  | cons item items =>
    obtain ⟨c, t, hw, solid, bracket⟩ :=
      exists_head (hi item List.mem_cons_self) indent (depth + 1)
    have shorter : (writeAt indent (depth + 1) item).length
        + (writeItems indent (depth + 1) items).length < fuel := by
      simp only [writeAt, List.length_append, List.length_cons, List.length_nil] at hf
      omega
    have inside : readItems? fuel (writeAt indent (depth + 1) item
        ++ (writeItems indent (depth + 1) items ++ (lineStart indent depth ++ ']' :: rest)))
          = some (item :: items, rest) :=
      ih.items hi (isGap_lineStart indent depth) shorter
    have written : writeAt indent depth (.array (item :: items)) ++ rest
        = '[' :: (lineStart indent (depth + 1) ++ (writeAt indent (depth + 1) item
          ++ (writeItems indent (depth + 1) items
            ++ (lineStart indent depth ++ ']' :: rest)))) := by
      simp [writeAt]
    rw [written]
    rw [hw, List.cons_append] at inside ⊢
    rw [readValue?_array (skipGaps_append (isGap_lineStart _ _) solid _) bracket, inside]
    rfl

theorem readsAt_object (ih : ReadsAt indent fuel) (distinct : (Table.keys members).Nodup)
    (hm : ∀ m ∈ members, Proper m.2)
    (hf : (writeAt indent depth (.object members)).length ≤ fuel + 1) :
    readValue? (fuel + 1) (writeAt indent depth (.object members) ++ rest)
      = some (.object members, rest) := by
  cases members with
  | nil => rfl
  | cons m members =>
    obtain ⟨key, value⟩ := m
    have shorter : (writeAt indent (depth + 1) value).length
        + (writeMembers indent (depth + 1) members).length < fuel := by
      simp only [writeAt, List.length_append, List.length_cons, List.length_nil] at hf
      omega
    have inside : readMembers? fuel (memberText indent (depth + 1) key value
        (writeMembers indent (depth + 1) members ++ (lineStart indent depth ++ '}' :: rest)))
          = some ((key, value) :: members, rest) :=
      ih.members hm (isGap_lineStart indent depth) shorter
    have written : writeAt indent depth (.object ((key, value) :: members)) ++ rest
        = '{' :: (lineStart indent (depth + 1) ++ memberText indent (depth + 1) key value
          (writeMembers indent (depth + 1) members
            ++ (lineStart indent depth ++ '}' :: rest))) := by
      simp [writeAt, memberText]
    have same : Table.ofEntries ((key, value) :: members) = (key, value) :: members :=
      Table.ofEntries_of_nodup distinct
    have opened := skipGaps_append (c := '\x22') (isGap_lineStart indent (depth + 1)) (by decide)
      (key.flatMap writeChar ++ '\x22' :: ':' :: ' ' :: (writeAt indent (depth + 1) value
        ++ (writeMembers indent (depth + 1) members ++ (lineStart indent depth ++ '}' :: rest))))
    rw [memberText_eq] at inside
    rw [written, memberText_eq, readValue?_object opened, inside, Option.map_some]
    dsimp only
    rw [same]

theorem readsAt_value (ih : ReadsAt indent fuel) (h : Proper j) (hr : Closes rest)
    (hf : (writeAt indent depth j).length ≤ fuel + 1) :
    readValue? (fuel + 1) (writeAt indent depth j ++ rest) = some (j, rest) := by
  cases h with
  | null => rfl
  | @bool b => cases b <;> rfl
  | @number n hn =>
    have written : writeAt indent depth (.number n) = n.write := by rw [writeAt]
    rw [written]
    exact readsAt_number hn hr
  | @string s =>
    have written : writeAt indent depth (.string s) ++ rest
        = '\x22' :: (s.flatMap writeChar ++ '\x22' :: rest) := by
      simp [writeAt, writeString]
    rw [written, readValue?, readString?_writeString]
    rfl
  | array hi => exact readsAt_array ih hi hf
  | object distinct hm => exact readsAt_object ih distinct hm hf

/-- By induction on the fuel: each reader calls the others with less. -/
theorem readsAt (indent : Option Nat) : ∀ fuel, ReadsAt indent fuel
  | 0 => readsAt_zero
  | fuel + 1 =>
    have ih := readsAt indent fuel
    ⟨readsAt_value ih, readsAt_items ih, readsAt_members ih⟩

/-- **A written value reads back**, on one line or with any indent. -/
theorem read?_write (h : Proper j) (indent : Option Nat) : read? (write indent j) = some j := by
  obtain ⟨c, t, hw, solid, -⟩ := exists_head h indent 0
  have reads : readValue? (2 * (write indent j).length + 1) (write indent j ++ [])
      = some (j, []) := by
    refine (readsAt indent _).value h closes_nil ?_
    rw [write]
    omega
  have start : skipGaps (write indent j) = write indent j := by
    rw [write, hw]
    exact skipGaps_of_not solid t
  rw [List.append_nil] at reads
  rw [read?, start, reads]
  rfl

end Values

end Transcription.Json
