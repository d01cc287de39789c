/-
Transcription.Proofs.WrittenGroup — a group of a text reads back from its
written form as the one group it was.

The nodes of a word are written one after the other, each break after the sign
that the word goes on. Read again, every break gives that sign as a node of its
own (`expanded`), and grouping takes the signs out. Breaks are what can change:
a label that holds a closing brace ends early, and a break without a label takes
up digits, a brace or a stroke that follow it. A group without such breaks is
`Readable`.

**`written_group_reads_back`**: every readable group of a text reads back, and
so does what an edit carries, which is always such a group.
-/
import Transcription.Proofs.Words
import Transcription.Proofs.EditScript
import Transcription.Edition.Part

namespace Transcription

open Lexer

namespace Node

/-! ## 1. Readable groups -/

/-- Nothing in a sequence of nodes of a word is taken into a break before it. -/
structure Readable (children : List Node) : Prop where
  /-- Labels hold no closing brace. -/
  closed : ∀ n ∈ children, n.isBreak = true → '}' ∉ n.label
  /-- Text right after a break without a label begins no label. -/
  apart : ∀ before n content after, children = before ++ n :: .text content :: after →
    n.isBreak = true → n.label = [] → ∀ c ∈ content.head?, BeginsNoLabel c

section Readable

variable {n : Node} {children : List Node}

theorem Readable.tail (h : Readable (n :: children)) : Readable children :=
  ⟨fun m hm => h.closed m (List.mem_cons_of_mem _ hm),
    fun before m content after he => h.apart (n :: before) m content after (by rw [he]; rfl)⟩

/-- A node of a word that is not text is written with one of the signs first. -/
theorem firstChar_mem (hn : InWord n) (ht : n.isText = false) :
    ∃ c ∈ ['.', '[', '<', '-', '+', '^', '?', ':', '~'], n.firstChar = some c := by
  cases n with
  | text content => cases ht
  | marked mark content => cases mark <;> exact ⟨_, by simp, rfl⟩
  | lineBreak label => exact ⟨_, by simp, firstChar_of_isBreak rfl⟩
  | pageBreak label => exact ⟨_, by simp, firstChar_of_isBreak rfl⟩
  | abbreviation abbr expansion => exact ⟨'.', by simp, rfl⟩
  | gap quantity reading => exact ⟨'[', by simp, rfl⟩
  | entity name => exact ⟨':', by simp, rfl⟩
  | compoundJoin => exact ⟨'~', by simp, rfl⟩
  | continuation | boundary | block _ _ | group _ _ => rcases hn.inside with hi | hi <;> cases hi

/-- A node of a word is written with a first character, with which no label
begins unless it is text. -/
theorem exists_firstChar (h : InWord n) :
    ∃ c, n.firstChar = some c ∧ (n.isText = false → BeginsNoLabel c) := by
  cases ht : n.isText with
  | true =>
    cases n with
    | text content =>
      obtain ⟨c, t, rfl⟩ := List.exists_cons_of_ne_nil h.admissible
      exact ⟨c, rfl, nofun⟩
    | _ => cases ht
  | false =>
    have signs : ∀ c ∈ ['.', '[', '<', '-', '+', '^', '?', ':', '~'], BeginsNoLabel c :=
      Text.forall_of_check (by decide)
    obtain ⟨c, hc, first⟩ := firstChar_mem h ht
    exact ⟨c, first, fun _ => signs c hc⟩

theorem head?_writeChildren (h : ∀ n ∈ children, InWord n) :
    (writeChildren children).head? = children.head?.bind firstChar := by
  cases children with
  | nil => rfl
  | cons n children =>
    obtain ⟨c, hc, -⟩ := exists_firstChar (h n List.mem_cons_self)
    have first : (n.writeIn true).head? = some c := hc
    show (n.writeIn true ++ writeChildren children).head? = n.firstChar
    rw [List.head?_append, first, hc]
    rfl

end Readable

/-! ## 2. Words -/

/-- The nodes of a word as they are read back: each break after the sign that the
word goes on. -/
def expanded (children : List Node) : List Node :=
  children.flatMap fun n => if n.isBreak then [.continuation, n] else [n]

theorem expanded_cons (n : Node) (ns : List Node) :
    expanded (n :: ns) = expanded [n] ++ expanded ns := by
  simp [expanded]

end Node

namespace Lexer

open Node

section Words

variable {n : Node} {ns ks children : List Node} {t rest : Text}

/-- A construct before text that can be read. -/
theorem lex_of_construct (h : construct t = .ok (some (ks, rest))) (hr : lex rest = .ok ns) :
    lex t = .ok (ks ++ ns) := by
  cases t with
  | nil => cases h
  | cons c t =>
    rw [lex_construct h, hr]
    rfl

/-- A construct at the start of a text is what the text is read as first. -/
theorem exists_lex_of_construct (hc : construct t = .ok (some (ks, rest))) (h : lex t = .ok ns) :
    ∃ ms, lex rest = .ok ms ∧ ns = ks ++ ms := by
  cases t with
  | nil => cases hc
  | cons c t =>
    rw [lex_construct hc] at h
    obtain ⟨ms, hm, rfl⟩ := exists_of_map h
    exact ⟨ms, hm, rfl⟩

theorem noText_expanded (h : ∀ m ∈ children.head?, m.isText = false) :
    ∀ m ∈ (expanded children).head?, m.isText = false := by
  cases children with
  | nil => nofun
  | cons n children =>
    have hn := h n rfl
    intro m hm
    cases hb : n.isBreak with
    | true =>
      simp [expanded, hb] at hm
      rw [← hm]
      rfl
    | false =>
      simp [expanded, hb] at hm
      rwa [← hm]

/-- What is written after a joint does not make a break of it. -/
theorem no_break_after (hw : ∀ n ∈ children, InWord n) (hj : Joined children none) :
    ∀ u, writeChildren children ≠ '/' :: '/' :: u := by
  intro u hu
  have first : children.head?.bind firstChar = some '/' := by
    rw [← head?_writeChildren hw, hu]
    rfl
  cases children with
  | nil => cases first
  | cons m children =>
    obtain ⟨hm, hws⟩ := List.forall_mem_cons.1 hw
    obtain ⟨c, hc, label⟩ := exists_firstChar hm
    have slash : c = '/' := Option.some.inj (hc.symm.trans first)
    cases m with
    | text content =>
      -- a stroke of text is never followed by another one
      cases content with
      | nil => cases first
      | cons d content =>
        have hd : d = '/' := Option.some.inj first
        subst hd
        have plain := hj.1.1.1
        rw [Option.or_none, ← head?_writeChildren hws, ← List.head?_append] at plain
        have rest : content ++ writeChildren children = '/' :: u := (List.cons.inj hu).2
        rw [rest] at plain
        cases plain
    | _ => exact absurd slash (label rfl).2.1

/-- What is written after a break without a label begins no label. -/
theorem beginsNoLabel_after (hw : ∀ n ∈ children, InWord n) (hr : Readable (n :: children))
    (hb : n.isBreak = true) (hl : n.label = []) :
    ∀ c ∈ (writeChildren children).head?, BeginsNoLabel c := by
  rw [head?_writeChildren hw]
  cases children with
  | nil => nofun
  | cons m children =>
    intro c hc
    obtain ⟨d, hd, label⟩ := exists_firstChar (hw m List.mem_cons_self)
    have same : d = c := Option.some.inj (hd.symm.trans hc)
    cases m with
    | text content => exact hr.apart [] n content children rfl hb hl c hc
    | _ => exact same ▸ label rfl

/-- The nodes of a word, written one after the other, read back. -/
theorem lex_writeChildren (hw : ∀ n ∈ children, InWord n) (hj : Joined children none)
    (hr : Readable children) : lex (writeChildren children) = .ok (expanded children) := by
  induction children with
  | nil => exact lex_nil
  | cons n children ih =>
    obtain ⟨hn, hws⟩ := List.forall_mem_cons.1 hw
    obtain ⟨jn, js⟩ := hj
    rw [Option.or_none] at jn
    have rest := ih hws js hr.tail
    -- what a node is read before begins as the next node does
    have head := head?_writeChildren hws
    show lex (n.writeIn true ++ writeChildren children) = _
    cases hb : n.isBreak with
    | true =>
      have closed := hr.closed n List.mem_cons_self hb
      have whole := lex_of_construct
        (construct_joined_break hb hn.admissible closed (beginsNoLabel_after hws hr hb)) rest
      simpa [expanded, hb] using whole
    | false =>
      have alone : expanded (n :: children) = n :: expanded children := by
        simp [expanded, hb]
      rw [alone]
      cases n with
      | text content =>
        refine lex_stands ?_ ?_ hn.admissible rest (noText_expanded jn.2)
        · rw [head]
          exact jn.1
        · have marks : ∀ c ∈ ['.', '[', ':'], c ∈ punctuationMarks := by simp [punctuationMarks]
          exact fun c hc hm => (hn.solid content rfl c hc).2 (marks c hm)
      | compoundJoin =>
        exact lex_of_construct (construct_compoundJoin (no_break_after hws js)) rest
      | abbreviation _ _ | gap _ _ | marked _ _ | entity _ =>
        exact lex_of_construct (construct_closed hn.admissible rfl true _) rest
      | lineBreak _ | pageBreak _ => cases hb
      | continuation | boundary | block _ _ | group _ _ =>
        rcases hn.inside with hi | hi <;> cases hi

end Words

end Lexer

namespace Node

open Pending

/-! ## 3. Grouping again -/

section Regrouping

variable {content : Text} {n : Node} {children : List Node}

theorem cutText_solid (h : Solid content) : ∀ (word : List Node) (run : Text) (inWord : Bool),
    ∃ w, cutText punctuationMarks content word run inWord
      = ([], word ++ textNode (run ++ content), w) := by
  induction content with
  | nil => exact fun word run inWord => ⟨inWord, by simp [cutText]⟩
  | cons c content ih =>
    intro word run inWord
    obtain ⟨⟨blank, mark⟩, rest⟩ := List.forall_mem_cons.1 h
    obtain ⟨w, hw⟩ := ih rest word (run ++ [c]) true
    exact ⟨w, by simp [cutText, blank, mark, hw]⟩

/-- Grouping collects a node of a word as it is read back. -/
theorem groupFrom_collect (hn : InWord n) (word : List Node) (inWord : Bool) (ms : List Node) :
    ∃ w, groupFrom punctuationMarks ⟨word, inWord, false⟩ (expanded [n] ++ ms)
      = groupFrom punctuationMarks ⟨word ++ [n], w, false⟩ ms := by
  cases hb : n.isBreak with
  | true =>
    have shape : expanded [n] ++ ms = .continuation :: n :: ms := by simp [expanded, hb]
    refine ⟨inWord, ?_⟩
    rw [shape]
    show (groupStep punctuationMarks ⟨word, inWord, true⟩ n).1
      ++ groupFrom punctuationMarks (groupStep punctuationMarks ⟨word, inWord, true⟩ n).2 ms = _
    rw [groupStep_break hb]
    rfl
  | false =>
    have shape : expanded [n] ++ ms = n :: ms := by simp [expanded, hb]
    rw [shape, groupFrom]
    cases n with
    | text content =>
      obtain ⟨w, hc⟩ := cutText_solid (hn.solid content rfl) word [] inWord
      have node : textNode ([] ++ content) = [.text content] := by
        simp [textNode, show content ≠ [] from hn.admissible]
      refine ⟨w, ?_⟩
      rw [groupStep, hc, node]
      rfl
    | abbreviation _ _ | gap _ _ | marked _ _ | entity _ | compoundJoin => exact ⟨true, rfl⟩
    | lineBreak _ | pageBreak _ => cases hb
    | continuation | boundary | block _ _ | group _ _ => rcases hn.inside with hi | hi <;> cases hi

/-- Grouping what a word is read back as collects the word again. -/
theorem groupFrom_expanded (hw : ∀ n ∈ children, InWord n) : ∀ (word : List Node) (inWord : Bool),
    groupFrom punctuationMarks ⟨word, inWord, false⟩ (expanded children)
      = closeWord (word ++ children) := by
  induction children with
  | nil => exact fun word inWord => by simp [expanded, groupFrom]
  | cons n children ih =>
    intro word inWord
    obtain ⟨hn, hws⟩ := List.forall_mem_cons.1 hw
    obtain ⟨w, collected⟩ := groupFrom_collect hn word inWord (expanded children)
    rw [expanded_cons n children, collected, ih hws, List.append_assoc, List.singleton_append]

end Regrouping

/-! ## 4. Groups -/

section Groups

variable {g n : Node} {ns : List Node} {t : Text}

/-- A construct that is the whole text. -/
theorem lex_whole (h : construct (n.write ++ []) = .ok (some ([n], []))) :
    lex n.write = .ok [n] := by
  rw [List.append_nil] at h
  exact lex_of_construct h lex_nil

theorem lex_mark {c : Char} (hc : c ∈ punctuationMarks) : lex [c] = .ok [.text [c]] := by
  have plain : construct [c] = .ok none := by
    simp only [punctuationMarks, List.mem_cons, List.not_mem_nil, or_false] at hc
    rcases hc with rfl | rfl | rfl | rfl | rfl | rfl | rfl | rfl | rfl | rfl <;> rfl
  rw [lex_char plain, lex_nil]
  rfl

theorem grouped_mark {c : Char} (hc : c ∈ punctuationMarks) :
    grouped [.text [c]] = [.group .punctuation [.text [c]]] := by
  simp only [punctuationMarks, List.mem_cons, List.not_mem_nil, or_false] at hc
  rcases hc with rfl | rfl | rfl | rfl | rfl | rfl | rfl | rfl | rfl | rfl <;> rfl

/-- A closed group that is readable reads back. -/
theorem lex_write_of_grouped (hg : Grouped g) (hr : Readable g.children) :
    ∃ ms, lex g.write = .ok ms ∧ grouped ms = [g] := by
  cases g with
  | group kind children =>
    cases kind with
    | word =>
      obtain ⟨hne, hw, hj⟩ := hg
      refine ⟨expanded children, lex_writeChildren hw hj hr, ?_⟩
      rw [grouped, start, groupFrom_expanded hw]
      simp [closeWord, hne]
    | punctuation =>
      obtain ⟨c, hc, rfl⟩ := hg
      exact ⟨_, lex_mark hc, grouped_mark hc⟩
  | block kind body =>
    have read := @construct_closed (.block kind body) hg rfl false []
    exact ⟨_, lex_whole read, rfl⟩
  | lineBreak label => exact ⟨_, lex_whole (construct_break hg.1 hg.2 nofun), rfl⟩
  | pageBreak label => exact ⟨_, lex_whole (construct_break hg.1 hg.2 nofun), rfl⟩
  | _ => cases hg.1

/-- What an operation carries is the written form of a group of the edited
text. -/
theorem mem_grouped_of_newText (h : lex t = .ok ns) {ss : List Segment} {limit : Int} {op : Patch}
    (ho : op ∈ Patch.compute ss t limit) {dsl : Text} (hd : Patch.newText? op = some dsl) :
    ∃ g ∈ grouped ns, dsl = g.write := by
  have carried : dsl ∈ Token.contents t := by
    unfold Patch.compute at ho
    dsimp only at ho
    split at ho
    · obtain ⟨u, -, rfl⟩ := List.mem_map.1 ho
      cases hd
    · exact (Patch.script_diff _ _ limit).newText_mem ho hd
  rw [Token.contents, h] at carried
  obtain ⟨g, hg, he⟩ := List.mem_map.1 carried
  exact ⟨g, hg, he.symm⟩

/-- Every readable group of a text reads back from its written form as the one
group it was. So does what an operation of an edit carries: it is a group of the
edited text, and what the compiler reads in it is that group and nothing else. -/
theorem written_group_reads_back (h : lex t = .ok ns) :
    (∀ g ∈ grouped ns, Readable g.children → ∃ ms, lex g.write = .ok ms ∧ grouped ms = [g])
      ∧ ∀ (ss : List Segment) (limit : Int), ∀ op ∈ Patch.compute ss t limit,
          ∀ dsl ∈ Patch.newText? op, ∃ g ∈ grouped ns, dsl = g.write
            ∧ (Readable g.children → Part.ofText? dsl = some [Part.ofNode g]) := by
  refine ⟨fun g hg hr => lex_write_of_grouped (grouped_of_lex h g hg) hr, ?_⟩
  intro ss limit op ho dsl hd
  obtain ⟨g, hg, rfl⟩ := mem_grouped_of_newText h ho hd
  refine ⟨g, hg, rfl, fun hr => ?_⟩
  obtain ⟨ms, hm, he⟩ := lex_write_of_grouped (grouped_of_lex h g hg) hr
  simp only [Part.ofText?, hm, he, Part.ofNodes, List.map_cons, List.map_nil]

theorem written_group_reads_back_joined_line :
    lex ['a', '/', '/', 'b'] = .ok [.text ['a'], .lineBreak none, .text ['b']]
      ∧ ∃ ms, lex ['a', '~', '/', '/', 'b'] = .ok ms
        ∧ grouped ms = [.group .word [.text ['a'], .lineBreak none, .text ['b']]] := by
  have lexed : lex ['a', '/', '/', 'b'] = .ok [.text ['a'], .lineBreak none, .text ['b']] := by
    have broken : construct ['/', '/', 'b'] = .ok (some ([.lineBreak none], ['b'])) := rfl
    have plain : construct ['a', '/', '/', 'b'] = .ok none := rfl
    have last : construct ['b'] = .ok none := rfl
    rw [lex_char plain, lex_construct broken, lex_char last, lex_nil]
    rfl
  have readable : Readable [.text ['a'], .lineBreak none, .text ['b']] := by
    refine ⟨by simp [label], ?_⟩
    intro before n content after he hb hl c hc
    rcases before with _ | ⟨k, _ | ⟨m, before⟩⟩
    · cases he
    · cases he
      cases hc
      decide
    · have := congrArg List.length he
      simp at this
      omega
  exact ⟨lexed, (written_group_reads_back lexed).1 _ (List.mem_singleton.2 rfl) readable⟩

end Groups

end Node

end Transcription
