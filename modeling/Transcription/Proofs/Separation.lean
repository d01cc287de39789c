/-
Transcription.Proofs.Separation — a blank separates what stands before it from
what comes after it.

No construct goes on across a blank, no name and no label holds one, and grouping
closes the word at it. So two texts with a blank between them are read and
grouped as each is alone, and where the second one fails, the whole fails at the
same construct. The fault is reported by its line and its column; the column
counts from the last line feed (`LastLineFeed`), and the two together tell the
offset (`Position.ofRest_drop_inj`).

**`read_across_blank`** says all of this.
-/
import Transcription.Proofs.Seams
import Transcription.Patch.Basic

namespace Transcription

/-! ## 1. Places -/

section Places

variable {before rest source : Text} {p q : Nat}

theorem Position.ofRest_append (before rest : Text) :
    Position.ofRest (before ++ rest) rest
      = ⟨before.count '\n' + 1, (before.reverse.takeWhile (· ≠ '\n')).length + 1⟩ := by
  simp [Position.ofRest]

/-- The place grows with the text before it: a line feed begins another line, and
anything else another column. -/
theorem Position.eq_nil_of_ofRest {more : Text}
    (h : Position.ofRest (before ++ more ++ rest) rest
      = Position.ofRest (before ++ (more ++ rest)) (more ++ rest)) : more = [] := by
  rw [ofRest_append, ofRest_append, Position.mk.injEq, List.count_append] at h
  obtain ⟨line, column⟩ := h
  have plain : '\n' ∉ more := List.count_eq_zero.1 (by omega)
  have passes := Lexer.passes_of_not_mem fun hm => plain (List.mem_reverse.1 hm)
  rw [List.reverse_append, List.takeWhile_append_of_pos passes, List.length_append,
    List.length_reverse] at column
  exact List.length_eq_zero_iff.1 (by omega)

theorem Position.eq_of_ofRest_drop (hpq : p ≤ q) (hq : q ≤ source.length)
    (h : Position.ofRest source (source.drop p) = Position.ofRest source (source.drop q)) :
    p = q := by
  have later : source.drop p = (source.drop p).take (q - p) ++ source.drop q := by
    have : source.drop q = (source.drop p).drop (q - p) := by
      rw [List.drop_drop, Nat.add_sub_cancel' hpq]
    rw [this, List.take_append_drop]
  have whole : source = source.take p ++ ((source.drop p).take (q - p) ++ source.drop q) := by
    rw [← later, List.take_append_drop]
  have between : (source.drop p).take (q - p) = [] := by
    refine @Position.eq_nil_of_ofRest (source.take p) (source.drop q) _ ?_
    rw [List.append_assoc, ← whole, ← later]
    exact h.symm
  have length := congrArg List.length between
  simp only [List.length_take, List.length_drop, List.length_nil] at length
  omega

/-- The place tells the offset. -/
theorem Position.ofRest_drop_inj (hp : p ≤ source.length) (hq : q ≤ source.length)
    (h : Position.ofRest source (source.drop p) = Position.ofRest source (source.drop q)) :
    p = q := by
  rcases Nat.le_total p q with hpq | hqp
  · exact Position.eq_of_ofRest_drop hpq hq h
  · exact (Position.eq_of_ofRest_drop hqp hp h.symm).symm

/-- The offset of the last line feed of a text, which is one before the text when
there is none. -/
def LastLineFeed (t : Text) (last : Int) : Prop :=
  ('\n' ∉ t ∧ last = -1)
    ∨ ∃ before after, t = before ++ '\n' :: after ∧ '\n' ∉ after ∧ last = before.length

/-- A column counts from the last line feed. -/
theorem exists_lastLineFeed (t : Text) : ∃ last, LastLineFeed t last
    ∧ ((t.reverse.takeWhile (· ≠ '\n')).length + 1 : Int) = t.length - last := by
  by_cases h : '\n' ∈ t.reverse
  · obtain ⟨line, before, hr, hl⟩ := List.eq_append_cons_of_mem h
    have ht : t = before.reverse ++ '\n' :: line.reverse := by
      rw [← List.reverse_reverse t, hr]
      simp
    refine ⟨before.reverse.length, .inr ⟨_, _, ht, by simpa using hl, rfl⟩, ?_⟩
    rw [hr, List.takeWhile_append_of_pos (Lexer.passes_of_not_mem hl),
      List.takeWhile_cons_of_neg (by simp), ht]
    simp only [List.append_nil, List.length_append, List.length_reverse, List.length_cons]
    omega
  · refine ⟨-1, .inl ⟨fun hm => h (List.mem_reverse.2 hm), rfl⟩, ?_⟩
    have line : t.reverse.takeWhile (· ≠ '\n') = t.reverse := by
      have := @List.takeWhile_append_of_pos _ _ _ [] (Lexer.passes_of_not_mem h)
      simpa using this
    rw [line, List.length_reverse]
    omega

end Places

namespace Lexer

open Node

/-! ## 2. Blanks -/

theorem exists_range_of_covers {ranges : Unicode.Ranges} {n : Nat} (h : ranges.covers n = true) :
    ∃ range ∈ ranges, range.1 ≤ n ∧ n ≤ range.2 := by
  induction ranges with
  | nil => cases h
  | cons range ranges ih =>
    obtain ⟨low, high⟩ := range
    simp only [Unicode.Ranges.covers] at h
    split at h
    · cases h
    · next hl =>
      split at h
      · next hh => exact ⟨(low, high), List.mem_cons_self, Nat.le_of_not_lt hl, hh⟩
      · obtain ⟨range, hm, hr⟩ := ih h
        exact ⟨range, List.mem_cons_of_mem _ hm, hr⟩

/-- No blank is a letter or a numeral. -/
theorem not_name_of_blank : ∀ range ∈ Unicode.blankRanges, ∀ k ≤ range.2 - range.1,
    Unicode.letterRanges.covers (range.1 + k) = false
      ∧ Unicode.numericRanges.covers (range.1 + k) = false := by
  decide +kernel

theorem not_isNameChar_of_isBlank {c : Char} (h : isBlank c = true) : isNameChar c = false := by
  obtain ⟨range, hm, low, high⟩ := exists_range_of_covers h
  obtain ⟨letter, numeric⟩ := not_name_of_blank range hm (c.toNat - range.1) (by omega)
  rw [Nat.add_sub_cancel' low] at letter numeric
  have underscore : c ≠ '_' := ne_of_isBlank h (by decide)
  simp [isNameChar, isLetter, isNumeric, letter, numeric, underscore]

section Blank

variable {a b : Text} {w : Char} {ns ms : List Node} {e : LexError}

theorem ends_of_isBlank (hw : isBlank w = true) : Ends w :=
  ⟨beginsNoLabel_of_isBlank hw, not_isNameChar_of_isBlank hw, ne_of_isBlank hw (by decide),
    ne_of_isBlank hw (by decide)⟩

theorem apart_of_isBlank (hw : isBlank w = true) (d : Char) : Apart w d :=
  ⟨fun he => absurd he (ne_of_isBlank hw (by decide)),
    fun he => absurd he (ne_of_isBlank hw (by decide))⟩

theorem lex_blank (hw : isBlank w = true) (b : Text) : lex (w :: b) = consChar w <$> lex b := by
  have no_sign : ∀ d ∈ openingSigns, isBlank d = false := Text.forall_of_check (by decide)
  exact lex_char (construct_of_noSign (fun hm => ne_of_isBlank hw (no_sign w hm) rfl) b)

/-- A text before a blank is read as it is read alone, and what comes after the
blank too; only a run of text goes on across it. -/
theorem lex_append_blank (ha : lex a = .ok ns) (hw : isBlank w = true) (b : Text) :
    lex (a ++ w :: b) = (fun ms => fuse ns (consChar w ms)) <$> lex b := by
  have severs : Severs w ns :=
    ⟨ends_of_isBlank hw, fun _ _ d _ => apart_of_isBlank hw d, .inl hw⟩
  rw [lex_seam ha severs, lex_blank hw]
  cases lex b <;> rfl

theorem exists_consChar (w : Char) (ms : List Node) :
    ∃ run rest, consChar w ms = .text (w :: run) :: rest := by
  unfold consChar
  split
  · exact ⟨_, _, rfl⟩
  · exact ⟨[], _, rfl⟩

/-- A blank at the start adds nothing. -/
theorem grouped_consChar (hw : isBlank w = true) (ms : List Node) :
    grouped (consChar w ms) = grouped ms := by
  unfold consChar
  split
  · next content ms =>
    have same : groupStep punctuationMarks .start (.text (w :: content))
        = groupStep punctuationMarks .start (.text content) := by
      rw [groupStep, groupStep, Pending.start, cutText_blank hw]
      rfl
    rw [grouped, groupFrom_cons, same]
    rfl
  · have nothing : groupStep punctuationMarks .start (.text [w]) = ([], .start) := by
      rw [groupStep, Pending.start, cutText_blank hw]
      rfl
    rw [grouped, groupFrom_cons, nothing]
    rfl

theorem grouped_fuse_blank (hw : isBlank w = true) (ns ms : List Node) :
    grouped (fuse ns (consChar w ms)) = grouped ns ++ grouped ms := by
  obtain ⟨run, rest, hc⟩ := exists_consChar w ms
  rw [← grouped_consChar hw ms, hc]
  exact groupFrom_fuse (.inl hw)

theorem contents_of_lex {t : Text} (h : lex t = .ok ns) :
    Token.contents t = (grouped ns).map Node.write := by
  rw [Token.contents, h]

/-- A text that cannot be read fails at a construct in it. -/
theorem of_lex_error {t : Text} (h : lex t = .error e) :
    ∃ before, t = before ++ e.rest ∧ construct e.rest = .error e.fault := by
  induction hn : t.length using Nat.strongRecOn generalizing t with
  | ind n ih =>
    cases t with
    | nil => rw [lex_nil] at h; cases h
    | cons c t =>
      cases hc : construct (c :: t) with
      | error fault =>
        rw [lex_fault hc] at h
        cases h
        exact ⟨[], rfl, hc⟩
      | ok found =>
        cases found with
        | none =>
          rw [lex_char hc] at h
          have inner : lex t = .error e := by
            cases hl : lex t <;> rw [hl] at h <;> cases h
            rfl
          obtain ⟨before, rfl, he⟩ := ih t.length (by rw [← hn]; exact Nat.lt_succ_self _) inner rfl
          exact ⟨c :: before, rfl, he⟩
        | some parts =>
          obtain ⟨ks, rest⟩ := parts
          rw [lex_construct hc] at h
          have inner : lex rest = .error e := by
            cases hl : lex rest <;> rw [hl] at h <;> cases h
            rfl
          have shorter : rest.length < n := by rw [← hn]; exact (within_construct hc).1
          obtain ⟨before, he, fault⟩ := ih rest.length shorter inner rfl
          obtain ⟨read, whole⟩ := suffix_construct hc
          exact ⟨read ++ before, by rw [← whole, he, List.append_assoc], fault⟩

/-- The place of a fault: the lines before it, and its distance from the last line
feed. -/
theorem located_append (fault : LexFault) (before rest : Text) (file : Option Text) :
    ∃ last, LastLineFeed before last
      ∧ LexError.located ⟨fault, rest⟩ (before ++ rest) file
        = ⟨fault.message, some (1 + before.count '\n' : Nat), some (before.length - last),
          file⟩ := by
  obtain ⟨last, hl, column⟩ := exists_lastLineFeed before
  refine ⟨last, hl, ?_⟩
  rw [LexError.located, Position.ofRest_append, ← column]
  simp [Nat.add_comm, Int.add_comm]

/-- **A blank separates.** A text before it and a text after it are read and grouped
as each is alone. If the second one fails, the whole fails with the same message
at the same construct, and the place that is reported, the line and the distance
from the last line feed, tells the offset of that construct. -/
theorem read_across_blank (ha : lex a = .ok ns) (hw : isBlank w = true) (b : Text) :
    (∀ ms, lex b = .ok ms → ∃ ks, lex (a ++ w :: b) = .ok ks
        ∧ grouped ks = grouped ns ++ grouped ms
        ∧ Token.contents (a ++ w :: b) = Token.contents a ++ Token.contents b)
      ∧ ∀ e, lex b = .error e → ∃ p ≤ b.length,
        b.drop p = e.rest ∧ construct (b.drop p) = .error e.fault
        ∧ let source := a ++ w :: b
          let offset := a.length + 1 + p
          lex source = .error ⟨e.fault, source.drop offset⟩
          ∧ (∀ file, ∃ last, LastLineFeed (source.take offset) last
            ∧ LexError.located ⟨e.fault, source.drop offset⟩ source file
              = ⟨e.fault.message, some (1 + (source.take offset).count '\n' : Nat),
                some (offset - last), file⟩)
          ∧ ∀ q ≤ source.length,
            Position.ofRest source (source.drop q) = Position.ofRest source (source.drop offset)
              → q = offset := by
  have whole := lex_append_blank ha hw b
  refine ⟨fun ms hb => ?_, fun e hb => ?_⟩
  · rw [hb] at whole
    refine ⟨_, whole, grouped_fuse_blank hw ns ms, ?_⟩
    rw [contents_of_lex whole, contents_of_lex ha, contents_of_lex hb, grouped_fuse_blank hw,
      List.map_append]
  · obtain ⟨before, he, fault⟩ := of_lex_error hb
    rw [hb] at whole
    have after : b.drop before.length = e.rest := by rw [he, List.drop_left]
    have place : a ++ w :: b = (a ++ w :: before) ++ e.rest := by rw [he]; simp
    have length : a.length + 1 + before.length = (a ++ w :: before).length := by
      simp only [List.length_append, List.length_cons]
      omega
    have inSource : (a ++ w :: before).length ≤ (a ++ w :: b).length := by
      rw [place]
      exact (List.prefix_append _ _).length_le
    refine ⟨before.length, ?_, after, after ▸ fault, ?_⟩
    · rw [he, List.length_append]
      omega
    · dsimp only
      rw [length]
      refine ⟨?_, fun file => ?_, fun q hq hp => Position.ofRest_drop_inj hq inSource hp⟩
      · rw [whole, place, List.drop_left]
        rfl
      · obtain ⟨last, hl, placed⟩ := located_append e.fault (a ++ w :: before) e.rest file
        refine ⟨last, ?_, ?_⟩
        · rw [place, List.take_left]
          exact hl
        · rw [place, List.drop_left, List.take_left]
          exact placed

theorem read_across_blank_after_page :
    lex ['/', '/', '/', '2'] = .ok [.pageBreak ['2']] ∧ isBlank '\n' = true
      ∧ Token.contents ['/', '/', '/', '2', '\n', '5']
          = Token.contents ['/', '/', '/', '2'] ++ Token.contents ['5']
      ∧ lex ['b', '<', 'c'] = .error ⟨.missing '>', ['<', 'c']⟩
      ∧ lex ['/', '/', '/', '2', '\n', 'b', '<', 'c'] = .error ⟨.missing '>', ['<', 'c']⟩ := by
  have page : lex ['/', '/', '/', '2'] = .ok [.pageBreak ['2']] := by
    have broken : construct ['/', '/', '/', '2'] = .ok (some ([.pageBreak ['2']], [])) := rfl
    rw [lex_construct broken, lex_nil]
    rfl
  have digit : lex ['5'] = .ok [.text ['5']] := by
    have plain : construct ['5'] = .ok none := rfl
    rw [lex_char plain, lex_nil]
    rfl
  have open_ : lex ['b', '<', 'c'] = .error ⟨.missing '>', ['<', 'c']⟩ := by
    have plain : construct ['b', '<', 'c'] = .ok none := rfl
    have fault : construct ['<', 'c'] = .error (.missing '>') := rfl
    rw [lex_char plain, lex_fault fault]
    rfl
  have blank : isBlank '\n' = true := by decide
  obtain ⟨ks, -, -, contents⟩ := (read_across_blank page blank ['5']).1 _ digit
  obtain ⟨p, hp, after, -, whole, -⟩ := (read_across_blank page blank ['b', '<', 'c']).2 _ open_
  refine ⟨page, blank, contents, open_, ?_⟩
  have start : p = 1 := by
    have length := congrArg List.length after
    simp only [List.length_drop, List.length_cons, List.length_nil] at length
    omega
  rw [start] at whole
  exact whole

end Blank

end Lexer

end Transcription
