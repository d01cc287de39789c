/-
Transcription.Proofs.WordLines — words that go on across lines, line by line.

A word may hold breaks, and text may stand right after one (`RunsOn`). Cut before each
such text, the word falls into its lines (`lines`). Written with a blank at every cut it
is still read, but as its lines: each of them is a word by itself.

**`takesMarks_lines`** says so of every readable word. The last section is about plain
writing, which is letters, blanks and breaks labelled with digits: its groups are words of
letters and such breaks, and breaks alone (`plainGroup_of_mem`).
-/
import Transcription.Proofs.Projection
import Transcription.Proofs.SingleChange

namespace Transcription.Node

open Pending

/-! ## 1. Lines -/

/-- Whether a node is a break and text comes right after it. -/
def endsLine (n : Node) (ns : List Node) : Bool :=
  n.isBreak && ns.head?.any isText

/-- The nodes of a word line by line. -/
def lines : List Node → List (List Node)
  | [] => []
  | n :: ns =>
      match lines ns with
      | [] => [[n]]
      | line :: rest => if endsLine n ns then [n] :: line :: rest else (n :: line) :: rest

/-- In a word text stands right after a break. -/
def RunsOn (ns : List Node) : Prop :=
  ∃ before n content after, ns = before ++ n :: .text content :: after ∧ n.isBreak = true

section Lines

variable {n m : Node} {ns line : List Node}

/-- The first line begins with the first node. -/
theorem exists_lines_eq (n : Node) (ns : List Node) :
    ∃ line rest, lines (n :: ns) = (n :: line) :: rest := by
  unfold lines
  split
  · exact ⟨_, _, rfl⟩
  · split <;> exact ⟨_, _, rfl⟩

theorem lines_of_endsLine (h : endsLine n ns = true) : lines (n :: ns) = [n] :: lines ns := by
  cases ns with
  | nil => simp [endsLine] at h
  | cons m ns =>
    obtain ⟨line, rest, he⟩ := exists_lines_eq m ns
    rw [lines, he]
    exact if_pos h

theorem exists_lines_of_not (h : endsLine n (m :: ns) = false) :
    ∃ line rest, lines (m :: ns) = (m :: line) :: rest
      ∧ lines (n :: m :: ns) = (n :: m :: line) :: rest := by
  obtain ⟨line, rest, he⟩ := exists_lines_eq m ns
  refine ⟨line, rest, he, ?_⟩
  rw [lines, he]
  exact if_neg (by simp [h])

theorem flatten_lines (ns : List Node) : (lines ns).flatten = ns := by
  induction ns with
  | nil => rfl
  | cons n ns ih =>
    cases ns with
    | nil => rfl
    | cons m ns =>
      cases he : endsLine n (m :: ns) with
      | true => rw [lines_of_endsLine he, List.flatten_cons, ih]; rfl
      | false =>
        obtain ⟨line, rest, hm, hn⟩ := exists_lines_of_not he
        rw [hm] at ih
        rw [hn, List.flatten_cons, List.cons_append]
        exact congrArg (n :: ·) ih

/-- Every line is a stretch of the word, and not an empty one. -/
theorem infix_of_mem_lines (h : line ∈ lines ns) : line ≠ [] ∧ line <:+: ns := by
  refine ⟨?_, flatten_lines ns ▸ List.infix_of_mem_flatten h⟩
  induction ns with
  | nil => cases h
  | cons n ns ih =>
    cases ns with
    | nil =>
      rw [List.mem_singleton.1 h]
      nofun
    | cons m ns =>
      cases he : endsLine n (m :: ns) with
      | true =>
        rw [lines_of_endsLine he] at h
        rcases List.mem_cons.1 h with rfl | h
        · nofun
        · exact ih h
      | false =>
        obtain ⟨line', rest, hm, hn⟩ := exists_lines_of_not he
        rw [hn] at h
        rcases List.mem_cons.1 h with rfl | h
        · nofun
        · exact ih (hm ▸ List.mem_cons_of_mem _ h)

theorem runsOn_cons : RunsOn (n :: ns) ↔ endsLine n ns = true ∨ RunsOn ns := by
  constructor
  · rintro ⟨before, b, content, after, he, hb⟩
    cases before with
    | nil =>
      cases he
      exact .inl (by rw [endsLine, hb]; rfl)
    | cons k before =>
      cases he
      exact .inr ⟨before, b, content, after, rfl, hb⟩
  · rintro (he | ⟨before, b, content, after, rfl, hb⟩)
    · obtain ⟨hb, ht⟩ := Bool.and_eq_true_iff.1 he
      cases ns with
      | nil => cases ht
      | cons m ns =>
        cases m with
        | text content => exact ⟨[], n, content, ns, rfl, hb⟩
        | _ => cases ht
    · exact ⟨n :: before, b, content, after, rfl, hb⟩

/-- A word has one line, unless text stands right after a break in it. -/
theorem one_lt_length_lines : 1 < (lines ns).length ↔ RunsOn ns := by
  induction ns with
  | nil =>
    refine ⟨fun h => absurd h (Nat.not_lt_zero 1), ?_⟩
    rintro ⟨before, _, _, _, he, -⟩
    cases before <;> cases he
  | cons n ns ih =>
    rw [runsOn_cons]
    cases ns with
    | nil =>
      refine ⟨fun h => absurd h (Nat.lt_irrefl 1), ?_⟩
      rintro (he | ⟨before, _, _, _, he, -⟩)
      · simp [endsLine] at he
      · cases before <;> cases he
    | cons m ns =>
      cases he : endsLine n (m :: ns) with
      | true =>
        obtain ⟨line, rest, hm⟩ := exists_lines_eq m ns
        rw [lines_of_endsLine he, hm]
        simp
      | false =>
        obtain ⟨line, rest, hm, hn⟩ := exists_lines_of_not he
        rw [hm] at ih
        rw [hn]
        simpa using ih

theorem lines_eq_of_not_runsOn (hne : ns ≠ []) (h : ¬RunsOn ns) : lines ns = [ns] := by
  have whole := flatten_lines ns
  have short := mt one_lt_length_lines.1 h
  obtain ⟨n, ns, rfl⟩ := List.exists_cons_of_ne_nil hne
  obtain ⟨line, rest, he⟩ := exists_lines_eq n ns
  rw [he] at whole short ⊢
  cases rest with
  | nil => simpa using whole
  | cons => simp at short

end Lines

/-! ## 2. Lines read back -/

section Reading

variable {g : Node} {ns gs line children : List Node} {ws : List Text}

/-- What holds a line back from nothing else: a line that is not the last ends in a
break. -/
theorem joined_lines (h : Joined ns none) : ∀ line ∈ lines ns, Joined line none := by
  induction ns with
  | nil => nofun
  | cons n ns ih =>
    obtain ⟨hn, hns⟩ := h
    cases ns with
    | nil =>
      intro line hl
      rw [List.mem_singleton.1 hl]
      exact ⟨hn, trivial⟩
    | cons m ns =>
      cases he : endsLine n (m :: ns) with
      | true =>
        have hb : n.isBreak = true := (Bool.and_eq_true_iff.1 he).1
        rw [lines_of_endsLine he]
        refine List.forall_mem_cons.2 ⟨⟨?_, trivial⟩, ih hns⟩
        cases n with
        | lineBreak _ | pageBreak _ => trivial
        | _ => cases hb
      | false =>
        obtain ⟨line, rest, hm, hl⟩ := exists_lines_of_not he
        have later := ih hns
        rw [hm] at later
        obtain ⟨first, later⟩ := List.forall_mem_cons.1 later
        rw [hl]
        exact List.forall_mem_cons.2 ⟨⟨hn, first⟩, later⟩

theorem Readable.of_infix (h : Readable ns) (hi : line <:+: ns) : Readable line := by
  obtain ⟨start, last, rfl⟩ := hi
  refine ⟨fun n hn => h.closed n (by simp [hn]), fun before n content after he => ?_⟩
  exact h.apart (start ++ before) n content (after ++ last) (by simp [he])

/-- Each line of a word is a word by itself. -/
theorem grouped_line (hg : Grouped (.group .word children)) (hl : line ∈ lines children) :
    Grouped (.group .word line) := by
  obtain ⟨-, hw, hj⟩ := hg
  obtain ⟨hne, within⟩ := infix_of_mem_lines hl
  exact ⟨hne, fun n hn => hw n (within.subset hn), joined_lines hj line hl⟩

/-- Words that take marks take them with blanks between them. -/
theorem takesMarks_join (h : ∀ w ∈ ws, TakesMarks w [w] ∧ EndsSolid w) (hne : ws ≠ []) :
    TakesMarks (Text.join " " ws) ws ∧ EndsSolid (Text.join " " ws) := by
  induction ws using Text.join.induct with
  | case1 => exact absurd rfl hne
  | case2 w => exact h w List.mem_cons_self
  | case3 w u rest ih =>
    obtain ⟨⟨hw, -⟩, hs⟩ := List.forall_mem_cons.1 h
    obtain ⟨marks, ends⟩ := ih hs nofun
    have blank : ∀ c ∈ " ".toList, isBlank c = true := Text.forall_of_check (by decide)
    exact ⟨.apart hw.reads marks blank (by decide), ends.append _⟩

/-- A word with a blank wherever a line ends in it. -/
def spacedLines (children : List Node) : Text :=
  Text.join " " ((lines children).map writeChildren)

/-- The tokens of a group with a blank wherever a line ends in it. -/
def lineTokens : Node → List Text
  | .group .word children => (lines children).map writeChildren
  | g => [g.write]

theorem spacedLines_cons (n : Node) (ns : List Node) :
    spacedLines (n :: ns)
      = n.writeIn true ++ (if endsLine n ns then [' '] else []) ++ spacedLines ns := by
  cases he : endsLine n ns with
  | true =>
    cases ns with
    | nil => simp [endsLine] at he
    | cons m ns =>
      obtain ⟨line, rest, hm⟩ := exists_lines_eq m ns
      rw [spacedLines, spacedLines, lines_of_endsLine he, hm]
      simp [Text.join, writeChildren]
  | false =>
    cases ns with
    | nil => simp [spacedLines, lines, Text.join, writeChildren]
    | cons m ns =>
      obtain ⟨line, rest, hm, hn⟩ := exists_lines_of_not he
      rw [spacedLines, spacedLines, hn, hm]
      cases rest <;> simp [Text.join, writeChildren]

/-- No line ends with text. -/
theorem spacedLines_text (content : Text) (ns : List Node) :
    spacedLines (.text content :: ns) = content ++ spacedLines ns := by
  have inside : endsLine (.text content) ns = false := rfl
  have text : (Node.text content).writeIn true = content := rfl
  rw [spacedLines_cons, inside, text, if_neg Bool.false_ne_true, List.append_nil]

/-- **A readable word with a blank wherever a line ends in it is read as its lines**, and
takes marks after it. -/
theorem takesMarks_lines (hg : Grouped (.group .word children)) (hr : Readable children) :
    TakesMarks (spacedLines children) ((lines children).map writeChildren)
      ∧ EndsSolid (spacedLines children) := by
  refine takesMarks_join ?_ ?_
  · simp only [List.forall_mem_map]
    intro line hl
    obtain ⟨ms, lexed, regrouped⟩ :=
      lex_write_of_grouped (grouped_line hg hl) (hr.of_infix (infix_of_mem_lines hl).2)
    exact takesMarks_word lexed regrouped rfl
  · obtain ⟨n, ns, rfl⟩ := List.exists_cons_of_ne_nil hg.1
    obtain ⟨line, rest, he⟩ := exists_lines_eq n ns
    rw [he]
    nofun

theorem lineTokens_ne_nil (h : Grouped g) : g.lineTokens ≠ [] := by
  cases g with
  | group kind children =>
    cases kind with
    | word =>
      obtain ⟨n, ns, rfl⟩ := List.exists_cons_of_ne_nil h.1
      obtain ⟨line, rest, he⟩ := exists_lines_eq n ns
      rw [lineTokens, he]
      nofun
    | punctuation => exact List.cons_ne_nil _ _
  | _ => exact List.cons_ne_nil _ _

theorem lineTokens_of_not_runsOn (h : Grouped g)
    (hn : ∀ children, g = .group .word children → ¬RunsOn children) : g.lineTokens = [g.write] := by
  cases g with
  | group kind children =>
    cases kind with
    | word => rw [lineTokens, lines_eq_of_not_runsOn h.1 (hn children rfl)]; rfl
    | punctuation => rfl
  | _ => rfl

theorem length_le_lineTokens (h : ∀ g ∈ gs, Grouped g) :
    gs.length ≤ (gs.flatMap lineTokens).length := by
  induction gs with
  | nil => exact Nat.le_refl 0
  | cons g gs ih =>
    obtain ⟨hg, hgs⟩ := List.forall_mem_cons.1 h
    have some := List.length_pos_iff.2 (lineTokens_ne_nil hg)
    have rest := ih hgs
    rw [List.flatMap_cons, List.length_append, List.length_cons]
    omega

/-- Groups with a blank wherever a line ends in them have their own tokens if and only if
text stands right after a break in no word. -/
theorem lineTokens_eq_iff (h : ∀ g ∈ gs, Grouped g) :
    gs.flatMap lineTokens = gs.map write
      ↔ ∀ children, .group .word children ∈ gs → ¬RunsOn children := by
  constructor
  · intro he children hm hr
    obtain ⟨before, after, rfl⟩ := List.append_of_mem hm
    rw [List.forall_mem_append, List.forall_mem_cons] at h
    have first := length_le_lineTokens h.1
    have last := length_le_lineTokens h.2.2
    have long : 1 < (lineTokens (.group .word children)).length := by
      rw [lineTokens, List.length_map]
      exact one_lt_length_lines.2 hr
    have total := congrArg List.length he
    simp only [List.flatMap_append, List.flatMap_cons, List.length_append, List.length_map,
      List.length_cons] at total
    omega
  · intro hn
    rw [← List.flatMap_singleton' (gs.map write), List.flatMap_map]
    refine List.flatMap_congr fun g hg => lineTokens_of_not_runsOn (h g hg) ?_
    rintro children rfl
    exact hn children hg

end Reading

/-! ## 3. Plain writing -/

/-- Text whose characters pass, or a line break labelled with digits. -/
def Plain (p : Char → Bool) : Node → Prop
  | .text content => ∀ c ∈ content, p c = true
  | .lineBreak (some label) => ∀ c ∈ label, Text.isDigit c = true
  | _ => False

/-- Whether a character is a letter or a blank. -/
def isScript (c : Char) : Bool :=
  isLetter c || isBlank c

/-- What plain writing is grouped as: a word of letters and labelled breaks, or such a
break. -/
def PlainGroup : Node → Prop
  | .group .word children => ∀ n ∈ children, n.Plain isLetter
  | .lineBreak label => (Node.lineBreak label).Plain isLetter
  | _ => False

section Plain

variable {n g : Node} {ns children : List Node} {c : Char}

theorem isLetter_of_isScript (hc : isScript c = true) (hb : isBlank c = false) :
    isLetter c = true := by
  simpa [isScript, hb] using hc

theorem plain_invariant :
    GroupInvariant punctuationMarks (isScript · = true) (Plain isLetter) PlainGroup where
  text _ _ script c hc := isLetter_of_isScript (script c hc).1 (script c hc).2.1
  word _ _ inner := inner
  mark _ hc hb hm := by
    have letter := isLetter_of_isScript hc hb
    exact absurd (List.contains_iff_mem.1 hm) (not_mem_marks_of_isLetter letter)

theorem enters_of_plain (hn : n.Plain isScript) :
    Enters (isScript · = true) (Plain isLetter) PlainGroup n := by
  cases n with
  | text content => exact hn
  | lineBreak label =>
    cases label with
    | none => cases hn
    | some label => exact ⟨hn, hn⟩
  | _ => cases hn

/-- The groups of plain writing are words of letters and labelled breaks, and breaks. -/
theorem plainGroup_of_mem (hn : ∀ n ∈ ns, n.Plain isScript) (hg : g ∈ grouped ns) :
    PlainGroup g :=
  plain_invariant.groups (fun n hm => enters_of_plain (hn n hm)) (List.forall_mem_nil _) g hg

/-- Nothing is taken into a break labelled with digits. -/
theorem readable_of_plain (h : ∀ n ∈ children, n.Plain isLetter)
    (hw : ∀ n ∈ children, InWord n) : Readable children where
  closed n hn hb hm := by
    have plain := h n hn
    cases n with
    | lineBreak label =>
      cases label with
      | none => cases plain
      | some label => exact absurd (plain _ hm) (by decide)
    | pageBreak label => cases plain
    | _ => cases hb
  apart before n content after he hb hl := by
    have inside : n ∈ children := he ▸ List.mem_append_right _ List.mem_cons_self
    have plain := h n inside
    cases n with
    | lineBreak label =>
      cases label with
      | none => cases plain
      | some label => exact absurd hl ((hw _ inside).admissible label rfl).1
    | pageBreak label => cases plain
    | _ => cases hb

end Plain

end Transcription.Node
