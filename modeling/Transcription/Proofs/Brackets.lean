/-
Transcription.Proofs.Brackets — texts in which every bracket belongs to a construct.

The lexer stops where a construct is opened and not closed. What opens it ends in a
bracket, and a bracket alone tells with the characters right before it which construct
that is. So it is asked of each opening bracket, whatever stands around the text, that
what closes its construct follows it (`Placed`); and of the text as a whole, that it
leaves every count of depth as it was (`Level`), since it may stand inside the brackets of
another construct. Texts with both properties (`Closed`) may be put one after the other,
lose blanks at their ends, and be put inside of constructs.

**`exists_lex_of_closed`**: such a text can be read, unless a gap stands right after what
ends like the name of an abbreviation, and so is taken for one (`Unmistaken`).
-/
import Mathlib.Data.List.Induction
import Transcription.Lexer.Basic
import Transcription.Proofs.Seams

namespace Transcription.Lexer

/-! ## 1. Depth -/

/-- Text without brackets. -/
def Bare (t : Text) : Prop :=
  ∀ c ∈ t, isOpener c = false ∧ isCloser c = false

/-- The ways to count how deep a place is in brackets. -/
inductive Counting : (Char → Nat → Nat) → Prop
  | braces : Counting braceDepth
  | brackets {close : Char} : close = '}' ∨ close = ']' → Counting (bracketDepth close)

/-- Text that leaves every count as it was. -/
def Level (t : Text) : Prop :=
  ∀ next, Counting next → ∀ depth, 0 < depth → depthAfter? next depth t = some depth

/-- The brackets that belong together. -/
def bracketPairs : List (Char × Char) :=
  [('{', '}'), ('[', ']'), ('<', '>')]

section Depth

variable {next : Char → Nat → Nat} {depth : Nat} {t u : Text} {c opener closer : Char}

/-- Counting goes on with the depth that the first text leaves. -/
theorem depthAfter?_append (next : Char → Nat → Nat) (depth : Nat) (t u : Text) :
    depthAfter? next depth (t ++ u)
      = (depthAfter? next depth t).bind fun d => depthAfter? next d u := by
  induction t generalizing depth with
  | nil => rfl
  | cons c t ih =>
    simp only [List.cons_append, depthAfter?]
    split
    · rfl
    · exact ih _

/-- Only brackets change a depth. -/
theorem next_bare (hn : Counting next) (hc : isOpener c = false ∧ isCloser c = false) :
    next c depth = depth := by
  obtain ⟨ho, hcl⟩ := hc
  have other {d : Char} (hd : isCloser d = true ∨ isOpener d = true) : c ≠ d := by
    rintro rfl
    simp [ho, hcl] at hd
  cases hn with
  | braces => simp [braceDepth, other (d := '}') (by decide), other (d := '{') (by decide)]
  | @brackets close hd =>
    have apart : c ≠ close := other (by rcases hd with rfl | rfl <;> decide)
    simp [bracketDepth, apart, ho, hcl]

/-- An opening bracket and the closing one after it cancel out. -/
theorem next_pair (hn : Counting next) (hp : (opener, closer) ∈ bracketPairs) (hd : 0 < depth) :
    0 < next opener depth ∧ next closer (next opener depth) = depth := by
  simp only [bracketPairs, List.mem_cons, Prod.mk.injEq, List.not_mem_nil, or_false] at hp
  cases hn with
  | braces => rcases hp with ⟨rfl, rfl⟩ | ⟨rfl, rfl⟩ | ⟨rfl, rfl⟩ <;> simp [braceDepth] <;> omega
  | brackets hc =>
    rcases hc with rfl | rfl <;> rcases hp with ⟨rfl, rfl⟩ | ⟨rfl, rfl⟩ | ⟨rfl, rfl⟩ <;>
      simp [bracketDepth, isOpener, isCloser, hd]

theorem depthAfter?_cons (hp : 0 < next c depth) :
    depthAfter? next depth (c :: t) = depthAfter? next (next c depth) t := by
  rw [depthAfter?, if_neg (Nat.pos_iff_ne_zero.1 hp)]

/-- A level text may stand anywhere in another one without unbalancing it. -/
theorem Level.append (ht : Level t) (hu : Level u) : Level (t ++ u) := by
  intro next hn depth hd
  rw [depthAfter?_append, ht next hn depth hd]
  exact hu next hn depth hd

theorem Bare.level (h : Bare t) : Level t := by
  intro next hn depth hd
  induction t with
  | nil => rfl
  | cons c t ih =>
    obtain ⟨hc, ht⟩ := List.forall_mem_cons.1 h
    have same : next c depth = depth := next_bare hn hc
    rw [depthAfter?_cons (same.symm ▸ hd), same, ih ht]

/-- A pair of brackets around a level text. -/
theorem Level.pair (ht : Level t) (hp : (opener, closer) ∈ bracketPairs) :
    Level (opener :: t ++ [closer]) := by
  intro next hn depth hd
  obtain ⟨pos, back⟩ := next_pair hn hp hd
  rw [depthAfter?_append, depthAfter?_cons pos, ht next hn _ pos]
  show depthAfter? next (next opener depth) [closer] = _
  rw [depthAfter?_cons (back.symm ▸ hd), back, depthAfter?]

/-- Text in its own brackets is balanced. -/
theorem Level.balanced (ht : Level t) (hn : Counting next) : Balanced next t :=
  ht next hn 1 Nat.one_pos

/-- A character without a bracket may be taken off. -/
theorem Level.of_cons (h : Level (c :: t)) (hc : isOpener c = false ∧ isCloser c = false) :
    Level t := by
  intro next hn depth hd
  have same : next c depth = depth := next_bare hn hc
  rw [← h next hn depth hd, depthAfter?_cons (same.symm ▸ hd), same]

/-- A character at the end that is no bracket may be dropped. -/
theorem Level.of_concat (h : Level (t ++ [c])) (hc : isOpener c = false ∧ isCloser c = false) :
    Level t := by
  intro next hn depth hd
  have whole := h next hn depth hd
  rw [depthAfter?_append] at whole
  obtain ⟨d, ht, hlast⟩ := Option.bind_eq_some_iff.1 whole
  have same : next c d = d := next_bare hn hc
  rw [depthAfter?_cons (same.symm ▸ depthAfter?_pos ht hd), same] at hlast
  rw [ht]
  exact hlast

end Depth

/-! ## 2. Brackets of constructs -/

/-- What stands right before an opening bracket of a construct, and what comes after it up
to the end of the construct. The second bracket of an abbreviation opens nothing by
itself. -/
inductive Bracket : Text → Char → Text → Prop
  | label {label : Text} : '}' ∉ label → Bracket ['/'] '{' (label ++ ['}'])
  | block (kind : BlockKind) {body : Text} :
      Level body → Bracket ('.' :: kind.name) '{' (body ++ ['}'])
  | mark {mark : Mark} {sign : Char} {content : Text} : mark.opening = [sign, '{'] →
      Level content → Bracket [sign] '{' (content ++ mark.closing)
  | abbreviation {abbr expansion : Text} : Level abbr → Level expansion →
      Bracket ".abbr" '[' (abbr ++ ']' :: '{' :: expansion ++ ['}'])
  | expansion : Bracket [']'] '{' []
  | gap {digits : Text} {reading : Option Text} : (∀ c ∈ digits, Text.isDigit c = true) →
      (∀ t ∈ reading, '>' ∉ t) →
      Bracket [] '['
        ("..." ++ digits ++ (reading.map fun t => '<' :: t ++ ['>']).getD [] ++ [']'])
  | supplied {content : Text} : '>' ∉ content → Bracket [] '<' (content ++ ['>'])

/-- An opening bracket between two texts is one of a construct that is closed. -/
def Placed (before : Text) (c : Char) (after : Text) : Prop :=
  ∃ sign body, sign <:+ before ∧ body <+: after ∧ Bracket sign c body

/-- What is asked of a bracket holds of each opening bracket of a text, with what stands
before it and after it, in the text and around it. -/
def Places (asked : Text → Char → Text → Prop) (before t after : Text) : Prop :=
  ∀ u c v, t = u ++ c :: v → isOpener c = true → asked (before ++ u) c (v ++ after)

section Places

variable {asked other : Text → Char → Text → Prop} {before ahead after behind t u : Text} {c : Char}

/-- What is asked, and what stands around the text, may change if every bracket allows it. -/
theorem Places.imp (h : Places asked before t after)
    (hi : ∀ u c v, asked (before ++ u) c (v ++ after) → other (ahead ++ u) c (v ++ behind)) :
    Places other ahead t behind :=
  fun u c v ht hc => hi u c v (h u c v ht hc)

theorem places_nil : Places asked before [] after := by
  intro u c v ht
  simp at ht

theorem places_cons : Places asked before (c :: t) after
    ↔ (isOpener c = true → asked before c (t ++ after)) ∧ Places asked (before ++ [c]) t after := by
  constructor
  · intro h
    refine ⟨fun hc => by simpa using h [] c t rfl hc, fun u d v ht hd => ?_⟩
    simpa using h (c :: u) d v (by rw [ht]; rfl) hd
  · rintro ⟨here, rest⟩ u d v ht hd
    cases u with
    | nil =>
      cases ht
      simpa using here hd
    | cons x u =>
      cases ht
      simpa using rest u d v rfl hd

theorem places_append : Places asked before (t ++ u) after
    ↔ Places asked before t (u ++ after) ∧ Places asked (before ++ t) u after := by
  induction t generalizing before with
  | nil => simp [places_nil]
  | cons c t ih => simp [places_cons, ih, and_assoc]

theorem places_of_forall (h : ∀ c ∈ t, isOpener c = false) : Places asked before t after := by
  rintro u c v rfl hc
  rw [h c (by simp)] at hc
  cases hc

end Places

section Placed

variable {before after t sign body : Text} {c : Char}

/-- A bracket in its place stays there when more stands before the text and behind it. -/
theorem Placed.mono (h : Placed before c after) (ahead behind : Text) :
    Placed (ahead ++ before) c (after ++ behind) := by
  obtain ⟨sign, body, hs, hb, bracket⟩ := h
  exact ⟨sign, body, hs.trans (List.suffix_append _ _), hb.trans (List.prefix_append _ _), bracket⟩

/-- The opening brackets of a text are those of constructs that are closed in it, and so
they are in any other text that it stands in. -/
theorem Places.mono (h : Places Placed [] t []) (before after : Text) :
    Places Placed before t after :=
  h.imp fun u c v placed => by simpa using placed.mono before after

/-- What stands around a bracket of a construct begins and ends in characters of it. -/
theorem Bracket.not_isBlank (h : Bracket sign c body) :
    (∀ x ∈ sign.head?, isBlank x = false) ∧ ∀ x ∈ body.getLast?, isBlank x = false := by
  have last {t : Text} {d : Char} (hd : isBlank d = false) :
      ∀ x ∈ (t ++ [d]).getLast?, isBlank x = false := by
    intro x hx
    rw [List.getLast?_concat] at hx
    cases hx
    exact hd
  have first {d : Char} {t : Text} (hd : isBlank d = false) :
      ∀ x ∈ (d :: t).head?, isBlank x = false := by
    intro x hx
    cases hx
    exact hd
  cases h with
  | label _ => exact ⟨first (by decide), last (by decide)⟩
  | block kind _ => exact ⟨first (by decide), last (by decide)⟩
  | @mark mark sign content hs _ =>
    cases mark with
    | supplied => cases hs
    | note => cases hs; exact ⟨first (by decide), last (by decide)⟩
    | deletion | addition | unclear =>
      cases hs
      refine ⟨first (by decide), ?_⟩
      rw [Mark.closing, ← List.singleton_append, ← List.append_assoc]
      exact last (by decide)
  | abbreviation _ _ => exact ⟨first (by decide), last (by decide)⟩
  | expansion => exact ⟨first (by decide), nofun⟩
  | gap _ _ => exact ⟨nofun, last (by decide)⟩
  | supplied _ => exact ⟨nofun, last (by decide)⟩

/-- A blank before a bracket is not of its construct. -/
theorem Placed.of_cons {d : Char} (h : Placed (c :: before) d after) (hc : isBlank c = true) :
    Placed before d after := by
  obtain ⟨sign, body, hs, hb, bracket⟩ := h
  rcases List.suffix_cons_iff.1 hs with rfl | hs
  · rw [bracket.not_isBlank.1 c rfl] at hc
    cases hc
  · exact ⟨sign, body, hs, hb, bracket⟩

/-- A blank after a bracket is not of its construct unless more comes. -/
theorem Placed.of_concat {d : Char} (h : Placed before d (after ++ [c]))
    (hc : isBlank c = true) : Placed before d after := by
  obtain ⟨sign, body, hs, hb, bracket⟩ := h
  rcases List.prefix_concat_iff.1 hb with rfl | hb
  · rw [bracket.not_isBlank.2 c List.getLast?_concat] at hc
    cases hc
  · exact ⟨sign, body, hs, hb, bracket⟩

end Placed

/-! ## 3. Closed texts -/

/-- Every bracket of the text belongs to a construct that is closed in it. -/
structure Closed (t : Text) : Prop where
  level : Level t
  openers : Places Placed [] t []

section Closed

variable {t u sign body tail content digits abbr expansion : Text}
  {c opener closer : Char}

theorem bare_nil : Bare [] :=
  fun _ hc => absurd hc List.not_mem_nil

theorem Bare.closed (h : Bare t) : Closed t :=
  ⟨h.level, places_of_forall fun c hc => (h c hc).1⟩

theorem bare_of_check (h : t.all (fun c => isOpener c = false ∧ isCloser c = false) = true) :
    Bare t :=
  Text.forall_of_check h

/-- Text without brackets is so in both halves. -/
theorem bare_append : Bare (t ++ u) ↔ Bare t ∧ Bare u :=
  List.forall_mem_append

theorem closed_nil : Closed [] :=
  bare_nil.closed

theorem Closed.append (ht : Closed t) (hu : Closed u) : Closed (t ++ u) :=
  ⟨ht.level.append hu.level, places_append.2 ⟨ht.openers.mono _ _, hu.openers.mono _ _⟩⟩

/-- Characters of a kind that no bracket is of. -/
theorem noBracket_of {p : Char → Bool}
    (hp : ['{', '[', '<', '}', ']', '>'].all (fun d => !p d) = true) (hc : p c = true) :
    isOpener c = false ∧ isCloser c = false := by
  have other {d : Char} (hd : d ∈ ['{', '[', '<', '}', ']', '>']) : c ≠ d := by
    rintro rfl
    have none := List.all_eq_true.1 hp c hd
    rw [hc] at none
    cases none
  simp [isOpener, isCloser, other (d := '{') (by decide), other (d := '[') (by decide),
    other (d := '<') (by decide), other (d := '}') (by decide), other (d := ']') (by decide),
    other (d := '>') (by decide)]

theorem noBracket_of_isBlank (hc : isBlank c = true) : isOpener c = false ∧ isCloser c = false :=
  noBracket_of (by decide) hc

theorem Closed.of_cons (h : Closed (c :: t)) (hc : isBlank c = true) : Closed t := by
  refine ⟨h.level.of_cons (noBracket_of_isBlank hc), fun u d v ht hd => ?_⟩
  exact (h.openers (c :: u) d v (by rw [ht]; rfl) hd).of_cons hc

theorem Closed.of_concat (h : Closed (t ++ [c])) (hc : isBlank c = true) : Closed t := by
  refine ⟨h.level.of_concat (noBracket_of_isBlank hc), fun u d v ht hd => ?_⟩
  have placed := h.openers u d (v ++ [c]) (by rw [ht]; simp) hd
  rw [List.append_nil] at placed ⊢
  exact placed.of_concat hc

/-- A property that texts keep when a blank is taken off at either end. -/
theorem holds_trim {P : Text → Prop} (first : ∀ c t, isBlank c = true → P (c :: t) → P t)
    (last : ∀ c t, isBlank c = true → P (t ++ [c]) → P t) (h : P t) : P t.trim := by
  have start : P t.trimStart := by
    induction t with
    | nil => exact h
    | cons c t ih =>
      rw [Text.trimStart, List.dropWhile_cons]
      split
      · next hc => exact ih (first c t hc h)
      · exact h
  unfold Text.trim
  generalize t.trimStart = u at start ⊢
  induction u using List.reverseRecOn with
  | nil => exact start
  | append_singleton u c ih =>
    rw [Text.trimEnd, List.reverse_concat, List.dropWhile_cons]
    split
    · next hc => exact ih (last c u hc start)
    · simpa using start

/-- Blanks at the ends may be taken off. -/
theorem Closed.trim (h : Closed t) : Closed t.trim :=
  holds_trim (fun _ _ hc ht => ht.of_cons hc) (fun _ _ hc ht => ht.of_concat hc) h

/-- A construct around a closed text. -/
theorem Closed.enclosed (hb : Closed body) (hp : (opener, closer) ∈ bracketPairs)
    (hs : Bare sign) (ht : Bare tail) (bracket : Bracket sign opener (body ++ closer :: tail)) :
    Closed (sign ++ opener :: (body ++ closer :: tail)) := by
  have closes : isOpener closer = false := by
    simp only [bracketPairs, List.mem_cons, Prod.mk.injEq, List.not_mem_nil, or_false] at hp
    rcases hp with ⟨-, rfl⟩ | ⟨-, rfl⟩ | ⟨-, rfl⟩ <;> decide
  constructor
  · simpa using hs.level.append ((hb.level.pair hp).append ht.level)
  · refine places_append.2 ⟨places_of_forall fun c hc => (hs c hc).1, ?_⟩
    refine places_cons.2 ⟨fun _ => ?_, places_append.2 ⟨hb.openers.mono _ _, ?_⟩⟩
    · exact ⟨sign, _, List.suffix_refl _, by simp, bracket⟩
    · refine places_of_forall fun c hc => ?_
      rcases List.mem_cons.1 hc with rfl | hc
      · exact closes
      · exact (ht c hc).1

theorem Bare.not_mem (h : Bare t) (hc : isOpener c = true ∨ isCloser c = true) : c ∉ t := by
  intro hm
  obtain ⟨ho, hcl⟩ := h c hm
  simp [ho, hcl] at hc

/-- Marks around closed text. What is supplied ends at the first angle bracket. -/
theorem closed_marked (mark : Mark) (hc : Closed content) (hb : mark = .supplied → '>' ∉ content) :
    Closed (mark.opening ++ content ++ mark.closing) := by
  have braces (sign : Char) (tail : Text) (hs : Bare [sign]) (ht : Bare tail)
      (ho : mark.opening = [sign, '{']) (he : mark.closing = '}' :: tail) :
      Closed (mark.opening ++ content ++ mark.closing) := by
    have bracket : Bracket [sign] '{' (content ++ '}' :: tail) := he ▸ .mark ho hc.level
    simpa [ho, he] using hc.enclosed (by decide) hs ht bracket
  cases mark with
  | supplied =>
    have bracket : Bracket [] '<' (content ++ ['>']) := .supplied (hb rfl)
    simpa [Mark.opening, Mark.closing] using hc.enclosed (by decide) bare_nil bare_nil bracket
  | deletion => exact braces '-' ['-'] (bare_of_check rfl) (bare_of_check rfl) rfl rfl
  | addition => exact braces '+' ['+'] (bare_of_check rfl) (bare_of_check rfl) rfl rfl
  | note => exact braces '^' [] (bare_of_check rfl) bare_nil rfl rfl
  | unclear => exact braces '?' ['?'] (bare_of_check rfl) (bare_of_check rfl) rfl rfl

/-- The brace of a block comes after its name. -/
theorem closed_block (kind : BlockKind) (hb : Closed body) :
    Closed (kind.opening ++ body ++ ['}']) := by
  have name : Bare ('.' :: kind.name) := by cases kind <;> exact bare_of_check rfl
  simpa [BlockKind.opening] using hb.enclosed (by decide) name bare_nil (.block kind hb.level)

/-- The bracket of an abbreviation has all of it behind it, and its brace is the second
half. -/
theorem closed_abbreviation (ha : Closed abbr) (he : Closed expansion) :
    Closed (".abbr[" ++ abbr ++ ']' :: '{' :: expansion ++ ['}']) := by
  have name : Bare ".abbr" := bare_of_check rfl
  have short : Level ('[' :: abbr ++ [']']) := ha.level.pair (by decide)
  have long : Level ('{' :: expansion ++ ['}']) := he.level.pair (by decide)
  have shape : ".abbr[".toList ++ abbr ++ ']' :: '{' :: expansion ++ ['}']
      = ".abbr".toList ++ '[' :: (abbr ++ ']' :: '{' :: (expansion ++ ['}'])) := by simp
  rw [shape]
  constructor
  · simpa using name.level.append (short.append long)
  · refine places_append.2 ⟨places_of_forall fun c hc => (name c hc).1, ?_⟩
    refine places_cons.2 ⟨fun _ => ?_, places_append.2 ⟨ha.openers.mono _ _, ?_⟩⟩
    · exact ⟨".abbr", _, List.suffix_refl _, by simp, .abbreviation ha.level he.level⟩
    refine places_cons.2 ⟨nofun, places_cons.2 ⟨fun _ => ?_, places_append.2 ⟨?_, ?_⟩⟩⟩
    · exact ⟨[']'], [], List.suffix_append _ _, List.nil_prefix, .expansion⟩
    · exact he.openers.mono _ _
    · exact places_of_forall (Text.forall_of_check (by decide))

theorem bare_of_isDigit (hd : ∀ c ∈ digits, Text.isDigit c = true) : Bare digits :=
  fun c hc => noBracket_of (by decide) (hd c hc)

/-- A gap without a reading, or with one that has no angle bracket to end it early. -/
theorem closed_gap (reading : Option Text) (hd : ∀ c ∈ digits, Text.isDigit c = true)
    (hr : ∀ t ∈ reading, Closed t ∧ '>' ∉ t) :
    Closed ("[..." ++ digits ++ (reading.map fun t => '<' :: t ++ ['>']).getD [] ++ [']']) := by
  have points : Bare "..." := bare_of_check rfl
  have angle : ∀ t ∈ reading, '>' ∉ t := fun t ht => (hr t ht).2
  have inside : Closed ((reading.map fun t => '<' :: t ++ ['>']).getD []) := by
    cases reading with
    | none => exact closed_nil
    | some t =>
      have supplied := closed_marked .supplied (hr t rfl).1 fun _ => angle t rfl
      simpa [Mark.opening, Mark.closing] using supplied
  have body := (points.closed.append (bare_of_isDigit hd).closed).append inside
  simpa using body.enclosed (by decide) bare_nil bare_nil (.gap hd angle)

/-- A break whose label has no brackets. -/
theorem closed_break (kind : BreakKind) {label : Option Text} (hl : ∀ t ∈ label, Bare t)
    (inWord : Bool) : Closed (kind.write label inWord) := by
  have bare : Bare (label.getD []) := by
    cases label with
    | none => exact nofun
    | some t => exact hl t rfl
  have braced : Closed ('/' :: '{' :: (label.getD [] ++ ['}'])) :=
    bare.closed.enclosed (by decide) (bare_of_check rfl) bare_nil
      (.label (bare.not_mem (.inr (by decide))))
  -- the last stroke of the sign is the one that the bracket of a label is told by
  obtain ⟨strokes, hs, hb⟩ : ∃ strokes,
      (if inWord then '~' :: kind.sign else kind.sign) = strokes ++ ['/'] ∧ Bare strokes := by
    cases kind <;> cases inWord
    · exact ⟨['/'], rfl, bare_of_check rfl⟩
    · exact ⟨['~', '/'], rfl, bare_of_check rfl⟩
    · exact ⟨['/', '/'], rfl, bare_of_check rfl⟩
    · exact ⟨['~', '/', '/'], rfl, bare_of_check rfl⟩
  have sign : Bare (strokes ++ ['/']) := bare_append.2 ⟨hb, bare_of_check rfl⟩
  simp only [BreakKind.write, hs]
  split
  · exact sign.closed
  · split
    · exact (bare_append.2 ⟨sign, bare⟩).closed
    · simpa using hb.closed.append braced

end Closed

/-! ## 4. Reading -/

section Reading

variable {before after t u done left : Text} {c : Char}

/-- Two ends of one text have the same last character. -/
theorem eq_of_suffix_concat {w : Text} {d : Char} (h : w ++ [d] <:+ before ++ [c]) : d = c :=
  List.singleton_suffix_append_singleton_iff.1 ((List.suffix_append w [d]).trans h)

/-- The character before a brace tells what the brace opens. -/
theorem of_brace (h : Placed (before ++ [c]) '{' after) :
    (c = '/' ∧ ∃ r, closedBy '}' after = .ok r)
      ∨ ((c = 'd' ∨ c = 'm') ∧ ∃ r, braced after = .ok r)
      ∨ (∃ mark : Mark, mark.opening = [c, '{'] ∧ ∃ r, markRest mark after = .ok r)
      ∨ c = ']' := by
  obtain ⟨sign, body, hs, ⟨rest, rfl⟩, bracket⟩ := h
  cases bracket with
  | @label label hl =>
    refine .inl ⟨(eq_of_suffix_concat (w := []) hs).symm, (label, rest), ?_⟩
    exact closedBy_eq_ok_iff.2 ⟨by simp, hl⟩
  | @block kind body hb =>
    refine .inr (.inl ⟨?_, (body, rest), ?_⟩)
    · cases kind with
      | supplied => exact .inl (eq_of_suffix_concat (w := ".supplie") hs).symm
      | head => exact .inl (eq_of_suffix_concat (w := ".hea") hs).symm
      | norm => exact .inr (eq_of_suffix_concat (w := ".nor") hs).symm
    · exact braced_eq_ok_iff.2 ⟨by simp, hb.balanced .braces⟩
  | @mark mark sign content hm hc =>
    cases eq_of_suffix_concat (w := []) hs
    refine .inr (.inr (.inl ⟨mark, hm, ([.marked mark content], rest), ?_⟩))
    have inside : Balanced (bracketDepth '}') content := hc.balanced (.brackets (.inl rfl))
    simpa using markRest_closing inside (by rintro rfl; cases hm) rest
  | expansion => exact .inr (.inr (.inr (eq_of_suffix_concat (w := []) hs).symm))

/-- A square bracket in its place opens an abbreviation or a gap that can be read. -/
theorem of_bracket (h : Placed before '[' after) :
    (".abbr" <:+ before ∧ ∃ r, abbreviationRest after = .ok r)
      ∨ "..." <+: after ∧ ∀ rest, after = "..." ++ rest → ∃ r, gapRest rest = .ok r := by
  obtain ⟨sign, body, hs, ⟨rest, rfl⟩, bracket⟩ := h
  cases bracket with
  | @abbreviation abbr expansion ha he =>
    have short : Balanced (bracketDepth ']') abbr := ha.balanced (.brackets (.inr rfl))
    have long : Balanced (bracketDepth '}') expansion := he.balanced (.brackets (.inl rfl))
    exact .inl ⟨hs, _, by simpa using abbreviationRest_written short long rest⟩
  | @gap digits reading hd hr =>
    refine .inr ⟨by simp, fun behind he => ⟨([.gap (Text.toNat? digits) reading], rest), ?_⟩⟩
    simp only [List.append_assoc] at he
    rw [← List.append_cancel_left he]
    simpa using gapRest_written hd hr rest

theorem of_angle (h : Placed before '<' after) : ∃ r, closedBy '>' after = .ok r := by
  obtain ⟨sign, body, -, ⟨rest, rfl⟩, bracket⟩ := h
  cases bracket with
  | @supplied content hc => exact ⟨(content, rest), closedBy_eq_ok_iff.2 ⟨by simp, hc⟩⟩

theorem of_stroke (h : Placed (before ++ ['/']) '{' after) : ∃ r, closedBy '}' after = .ok r := by
  rcases of_brace h with ⟨-, found⟩ | ⟨he, -⟩ | ⟨mark, hm, -⟩ | he
  · exact found
  · rcases he with he | he <;> cases he
  · cases mark <;> cases hm
  · cases he

/-- A brace after the sign of a mark opens what the mark holds. -/
theorem of_sign {mark : Mark} (hm : mark.opening = [c, '{'])
    (h : Placed (before ++ [c]) '{' after) : ∃ r, markRest mark after = .ok r := by
  rcases of_brace h with ⟨rfl, -⟩ | ⟨rfl | rfl, -⟩ | ⟨other, ho, found⟩ | rfl
  · cases mark <;> cases hm
  · cases mark <;> cases hm
  · cases mark <;> cases hm
  · have same : other = mark := by cases mark <;> cases hm <;> cases other <;> cases ho <;> rfl
    exact same ▸ found
  · cases mark <;> cases hm

theorem of_blockName {kind : BlockKind} (h : Placed (before ++ '.' :: kind.name) '{' after) :
    ∃ r, braced after = .ok r := by
  have ends : ∃ w c, '.' :: kind.name = w ++ [c] ∧ (c = 'd' ∨ c = 'm') := by
    cases kind with
    | supplied => exact ⟨".supplie", 'd', rfl, .inl rfl⟩
    | head => exact ⟨".hea", 'd', rfl, .inl rfl⟩
    | norm => exact ⟨".nor", 'm', rfl, .inr rfl⟩
  obtain ⟨w, c, he, hc⟩ := ends
  rw [he, ← List.append_assoc] at h
  rcases of_brace h with ⟨rfl, -⟩ | ⟨-, found⟩ | ⟨mark, hm, -⟩ | rfl
  · rcases hc with hc | hc <;> cases hc
  · exact found
  · rcases hc with rfl | rfl <;> cases mark <;> cases hm
  · rcases hc with hc | hc <;> cases hc

/-- A label in braces is closed, and any other one ends by itself. -/
theorem exists_breakLabel (h : ∀ v, t = '{' :: v → Placed (before ++ ['/']) '{' v) :
    ∃ r, breakLabel t = .ok r := by
  unfold breakLabel
  split
  · exact of_stroke (h _ rfl)
  · exact ⟨_, rfl⟩

/-- A label fails only where its brace is never closed. -/
theorem exists_pageLabel (h : ∀ v, t = '{' :: v → Placed (before ++ ['/']) '{' v) :
    ∃ r, pageLabel t = .ok r := by
  unfold pageLabel
  split
  · exact of_stroke (h _ rfl)
  · exact ⟨_, rfl⟩

/-- Nothing that reads like an abbreviation up to the points of a gap is anything else: no
gap stands right after what ends like the name of one. -/
def Unmistaken (t : Text) : Prop :=
  ∀ before after, t = before ++ ".abbr[..." ++ after →
    ∃ r, abbreviationRest ("..." ++ after) = .ok r

/-- Reading has not come into the name of an abbreviation: none that can be read begins in
the text that is done and has its bracket in the text that is left. -/
def Passed (done left : Text) : Prop :=
  ∀ u v, u ≠ [] → u ++ v = abbreviationName → u <:+ done →
    ∀ rest, left = v ++ '[' :: rest → ¬ ∃ r, abbreviationRest rest = .ok r

theorem passed_nil : Passed [] t :=
  fun _ _ hne _ hu => absurd (List.suffix_nil.1 hu) hne

/-- The point of an abbreviation that can be read is not a plain character. -/
theorem Passed.char (h : Passed done (c :: left)) (hc : construct (c :: left) = .ok none) :
    Passed (done ++ [c]) left := by
  rintro u v hne name hu rest rfl found
  obtain rfl | ⟨u, rfl, ends⟩ := List.suffix_concat_iff.1 hu
  · exact hne rfl
  · cases u with
    | nil =>
      have letters : c :: v = '.' :: ['a', 'b', 'b', 'r'] := name
      obtain ⟨rfl, rfl⟩ := List.cons.inj letters
      obtain ⟨r, hr⟩ := found
      have opened : construct ('.' :: (['a', 'b', 'b', 'r'] ++ '[' :: rest))
          = some <$> abbreviationRest rest := rfl
      rw [opened, hr] at hc
      cases hc
    | cons d u => exact h (d :: u) (c :: v) nofun (by simpa using name) ends rest rfl found

/-- No construct ends inside the name of an abbreviation. -/
theorem Passed.construct {ks : List Node} {rest : Text} (hp : Passed done left)
    (hc : construct left = .ok (some (ks, rest))) :
    ∃ read, left = read ++ rest ∧ Passed (done ++ read) rest := by
  obtain ⟨read, d, rfl, last⟩ := leaves_construct hc
  refine ⟨read ++ [d], by simp, ?_⟩
  rintro u v hne name hu after rfl -
  rw [← List.append_assoc] at hu
  obtain rfl | ⟨u, rfl, -⟩ := List.suffix_concat_iff.1 hu
  · exact hne rfl
  · have blank := last (name ▸ by simp)
    cases v with
    | nil => exact absurd (blank '[' rfl) (by decide)
    | cons e v =>
      have letters : ∀ x ∈ abbreviationName, isBlank x = false :=
        Text.forall_of_check (by decide)
      have letter := letters e (name ▸ by simp)
      rw [blank e rfl] at letter
      cases letter

/-- No place in a closed text opens a construct that is not closed. -/
theorem construct_of_closed (ht : Closed (done ++ left))
    (hn : Unmistaken (done ++ left)) (hp : Passed done left) :
    ∃ found, construct left = .ok found := by
  have placed (sign : Text) {c : Char} {v : Text} (hc : isOpener c = true)
      (hu : left = sign ++ c :: v) : Placed (done ++ sign) c v := by
    simpa using ht.openers (done ++ sign) c v (by rw [hu, List.append_assoc]) hc
  have label (strokes : Text) {t : Text} (hu : left = strokes ++ '/' :: t) (v : Text)
      (hv : t = '{' :: v) : Placed (done ++ strokes ++ ['/']) '{' v := by
    simpa using placed (strokes ++ ['/']) (by decide) (by rw [hu, hv]; simp)
  have found {run : Except LexFault (List Node × Text)} (h : ∃ r, run = .ok r) :
      ∃ found, some <$> run = .ok found := by
    obtain ⟨r, rfl⟩ := h
    exact ⟨some r, rfl⟩
  have broken {run : Except LexFault (Text × Text)} (h : ∃ r, run = .ok r)
      {next : Text × Text → Except LexFault (List Node × Text)} (hr : ∀ r, ∃ s, next r = .ok s) :
      ∃ found, some <$> (run >>= next) = .ok found := by
    obtain ⟨r, rfl⟩ := h
    exact found (hr r)
  unfold construct
  split
  · next v =>
    exact broken (exists_pageLabel (label ['/', '/'] rfl)) fun r => ⟨_, rfl⟩
  · next v _ =>
    exact broken (exists_breakLabel (label ['/'] rfl)) fun r => ⟨_, rfl⟩
  · next v =>
    unfold dotted
    split
    · next kind x hk =>
      have block := placed ('.' :: kind.name) (c := '{') (v := x) (by decide) (by
        rw [eq_of_blockOpening? hk, BlockKind.opening]
        simp)
      obtain ⟨⟨body, rest⟩, hb⟩ := of_blockName block
      exact ⟨some ([.block kind body], rest), by rw [hb]; rfl⟩
    · split
      · next x hx =>
        have shape := after?_eq_some_iff.1 hx
        have abbr := placed ".abbr" (c := '[') (v := x) (by decide) (by rw [shape]; rfl)
        rcases of_bracket abbr with ⟨-, whole⟩ | ⟨⟨y, rfl⟩, -⟩
        · exact found whole
        · exact found (hn done y (by rw [shape]; simp))
      · exact ⟨none, rfl⟩
  · next v =>
    rcases of_bracket (placed [] (c := '[') (v := "..." ++ v) (by decide) rfl) with
      ⟨name, whole⟩ | ⟨-, whole⟩
    · rw [List.append_nil] at name
      exact absurd whole (hp abbreviationName [] nofun rfl name ("..." ++ v) rfl)
    · exact found (whole v rfl)
  · exact ⟨_, rfl⟩
  · next v _ => exact broken (of_angle (placed [] (by decide) rfl)) fun r => ⟨_, rfl⟩
  · exact found (of_sign rfl (placed ['-'] (by decide) rfl))
  · exact found (of_sign rfl (placed ['+'] (by decide) rfl))
  · exact found (of_sign rfl (placed ['^'] (by decide) rfl))
  · exact found (of_sign rfl (placed ['?'] (by decide) rfl))
  · exact ⟨_, rfl⟩
  · next v =>
    exact broken (exists_breakLabel (label ['~', '/', '/'] rfl)) fun r => ⟨_, rfl⟩
  · next v _ =>
    exact broken (exists_breakLabel (label ['~', '/'] rfl)) fun r => ⟨_, rfl⟩
  · exact ⟨_, rfl⟩
  · exact ⟨_, rfl⟩
  · exact ⟨_, rfl⟩

/-- A closed text can be read, where no gap is mistaken for an abbreviation. -/
theorem exists_lex_of_closed (ht : Closed t) (hn : Unmistaken t) : ∃ ns, lex t = .ok ns := by
  -- what is left to read is an end of the text, and not one that begins in a name
  suffices rest : ∀ left done, t = done ++ left → Passed done left → ∃ ns, lex left = .ok ns from
    rest t [] rfl passed_nil
  intro left
  induction hl : left.length using Nat.strongRecOn generalizing left with
  | ind n ih =>
    rintro done rfl hp
    cases left with
    | nil => exact ⟨[], lex_nil⟩
    | cons c left =>
      obtain ⟨found, hc⟩ := construct_of_closed ht hn hp
      cases found with
      | none =>
        have shorter : left.length < n := by simp [← hl]
        obtain ⟨ns, hr⟩ := ih _ shorter left rfl (done ++ [c]) (by simp) (hp.char hc)
        exact ⟨consChar c ns, by rw [lex_char hc, hr]; rfl⟩
      | some parts =>
        obtain ⟨ks, rest⟩ := parts
        obtain ⟨read, whole, passed⟩ := hp.construct hc
        have shorter : rest.length < n := hl ▸ (within_construct hc).1
        obtain ⟨ns, hr⟩ := ih _ shorter rest rfl (done ++ read) (by simp [whole]) passed
        exact ⟨ks ++ ns, by rw [lex_construct hc, hr]; rfl⟩

end Reading

end Transcription.Lexer
