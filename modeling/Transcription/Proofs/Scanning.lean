/-
Transcription.Proofs.Scanning — what the scanners accept, with the rest of
the text free.

Each scanner succeeds on exactly one shape of text: what it returns, its
closing sign and the rest, where what it returns could not have been closed
earlier. For brackets that condition is `Balanced`: scanned from depth one,
the text never closes its bracket and ends at depth one. The statements are
equivalences, so that they serve both ways: from left to right they say what
has been read, from right to left that what is written reads back, whatever
follows it.
-/
import Transcription.Lexer.Construct

namespace Transcription.Lexer

/-! ## 1. Nesting -/

/-- The depth after a text that is scanned from a depth on, unless it falls to
zero on the way. -/
def depthAfter? (next : Char → Nat → Nat) : Nat → Text → Option Nat
  | depth, [] => some depth
  | depth, c :: t => if next c depth = 0 then none else depthAfter? next (next c depth) t

/-- The text inside a bracket neither closes it nor leaves another one open. -/
def Balanced (next : Char → Nat → Nat) (t : Text) : Prop :=
  depthAfter? next 1 t = some 1

section Depth

variable {next : Char → Nat → Nat} {depth d : Nat} {c close : Char} {t body rest : Text}

theorem enclosed?_append (h : depthAfter? next depth body = some d) (hc : next c d = 0)
    (rest : Text) : enclosed? next depth (body ++ c :: rest) = some (body, rest) := by
  induction body generalizing depth with
  | nil =>
    cases h
    simp [enclosed?, hc]
  | cons b body ih =>
    simp only [depthAfter?] at h
    split at h
    · cases h
    · next hb => simp [enclosed?, hb, ih h]

theorem depthAfter?_of_enclosed? (h : enclosed? next depth t = some (body, rest)) :
    ∃ c d, t = body ++ c :: rest ∧ depthAfter? next depth body = some d ∧ next c d = 0 := by
  induction t generalizing depth body with
  | nil => cases h
  | cons b t ih =>
    simp only [enclosed?] at h
    split at h
    · next hb => cases h; exact ⟨b, depth, rfl, rfl, hb⟩
    · next hb =>
      obtain ⟨⟨inner, after⟩, hi, he⟩ := Option.map_eq_some_iff.1 h
      cases he
      obtain ⟨c, d, rfl, hd, hc⟩ := ih hi
      exact ⟨c, d, rfl, by simp [depthAfter?, hb, hd], hc⟩

theorem depthAfter?_pos (h : depthAfter? next depth t = some d) (hp : 0 < depth) : 0 < d := by
  induction t generalizing depth with
  | nil => cases h; exact hp
  | cons c t ih =>
    simp only [depthAfter?] at h
    split at h
    · cases h
    · next hc => exact ih h (Nat.pos_of_ne_zero hc)

/-- A bracket is closed by its own sign at depth one, and by nothing else. -/
theorem bracketDepth_eq_zero (hd : 0 < d) : bracketDepth close c d = 0 ↔ c = close ∧ d = 1 := by
  unfold bracketDepth
  by_cases hc : c = close
  · simp only [hc, if_true, true_and]
    omega
  · simp only [hc, if_false, false_and, iff_false]
    split
    · omega
    · split <;> omega

/-- A block is closed by a brace at depth one. -/
theorem braceDepth_eq_zero (hd : 0 < d) : braceDepth c d = 0 ↔ c = '}' ∧ d = 1 := by
  unfold braceDepth
  by_cases hc : c = '}'
  · simp only [hc, if_true, true_and]
    omega
  · simp only [hc, if_false, false_and, iff_false]
    split <;> omega

/-- Where a bracket is closed by one sign at depth one only, what is enclosed
is balanced and followed by that sign. -/
theorem enclosed?_eq_some_iff (closes : ∀ {c d}, 0 < d → (next c d = 0 ↔ c = close ∧ d = 1)) :
    enclosed? next 1 t = some (body, rest) ↔ t = body ++ close :: rest ∧ Balanced next body := by
  constructor
  · intro h
    obtain ⟨c, d, rfl, hd, hc⟩ := depthAfter?_of_enclosed? h
    obtain ⟨rfl, rfl⟩ := (closes (depthAfter?_pos hd Nat.one_pos)).1 hc
    exact ⟨rfl, hd⟩
  · rintro ⟨rfl, hb⟩
    exact enclosed?_append hb ((closes Nat.one_pos).2 ⟨rfl, rfl⟩) rest

end Depth

/-! ## 2. Readers -/

section Readers

variable {close : Char} {t body rest label name : Text}

theorem bracketed_eq_ok_iff : bracketed close t = .ok (body, rest)
    ↔ t = body ++ close :: rest ∧ Balanced (bracketDepth close) body := by
  rw [← enclosed?_eq_some_iff bracketDepth_eq_zero, bracketed]
  cases enclosed? (bracketDepth close) 1 t <;> simp

theorem braced_eq_ok_iff : braced t = .ok (body, rest)
    ↔ t = body ++ '}' :: rest ∧ Balanced braceDepth body := by
  rw [← enclosed?_eq_some_iff braceDepth_eq_zero, braced]
  cases enclosed? braceDepth 1 t <;> simp

theorem upTo?_append (h : close ∉ body) (rest : Text) :
    Text.upTo? close (body ++ close :: rest) = some (body, rest) := by
  induction body with
  | nil => simp [Text.upTo?]
  | cons c body ih =>
    obtain ⟨hc, hb⟩ := not_or.1 (fun hm => h (List.mem_cons.2 hm))
    simp [Text.upTo?, Ne.symm hc, ih hb]

theorem not_mem_of_upTo? (h : Text.upTo? close t = some (body, rest)) : close ∉ body := by
  induction t generalizing body with
  | nil => cases h
  | cons c t ih =>
    simp only [Text.upTo?] at h
    split at h
    · cases h; exact List.not_mem_nil
    · next hc =>
      obtain ⟨⟨before, after⟩, hb, he⟩ := Option.map_eq_some_iff.1 h
      cases he
      exact fun hm => (List.mem_cons.1 hm).elim (fun he => hc he.symm) (ih hb)

theorem closedBy_eq_ok_iff : closedBy close t = .ok (body, rest)
    ↔ t = body ++ close :: rest ∧ close ∉ body := by
  have found : closedBy close t = .ok (body, rest) ↔ Text.upTo? close t = some (body, rest) := by
    rw [closedBy]
    cases Text.upTo? close t <;> simp
  rw [found]
  constructor
  · exact fun h => ⟨Text.upTo?_eq h, not_mem_of_upTo? h⟩
  · rintro ⟨rfl, hb⟩
    exact upTo?_append hb rest

theorem expect_eq_ok_iff : expect close t = .ok rest ↔ t = close :: rest := by
  cases t with
  | nil => simp [expect]
  | cons c t =>
    by_cases hc : c = close
    · simp [expect, hc]
    · simp [expect, hc]

/-- A run of passing characters is cut off where what follows does not pass. -/
theorem span_append_stop {p : Char → Bool} (hbody : ∀ c ∈ body, p c = true)
    (hrest : ∀ c ∈ rest.head?, p c = false) : Text.span p (body ++ rest) = (body, rest) := by
  induction body with
  | nil =>
    cases rest with
    | nil => rfl
    | cons c rest => simp [Text.span, hrest c rfl]
  | cons c body ih =>
    have hc := hbody c List.mem_cons_self
    have := ih fun d hd => hbody d (List.mem_cons_of_mem _ hd)
    simp only [Text.span, Prod.mk.injEq] at this
    simp [Text.span, hc, this.1, this.2]

theorem all_of_span {p : Char → Bool} (h : Text.span p t = (body, rest)) :
    ∀ c ∈ body, p c = true := by
  cases h
  exact List.all_eq_true.1 List.all_takeWhile

/-- A text without a sign is a run up to it. -/
theorem passes_of_not_mem {sign : Char} (h : sign ∉ t) : ∀ c ∈ t, decide (c ≠ sign) = true := by
  intro c hc
  simpa using fun he : c = sign => h (he ▸ hc)

/-- A label never holds the brace that would end it. -/
theorem not_mem_of_breakLabel (h : breakLabel t = .ok (label, rest)) : '}' ∉ label := by
  unfold breakLabel at h
  split at h
  · exact (closedBy_eq_ok_iff.1 h).2
  · intro hm
    have digit := all_of_span (Except.ok.inj h) '}' hm
    revert digit
    decide

theorem breakLabel_braced (h : '}' ∉ label) (rest : Text) :
    breakLabel ('{' :: (label ++ '}' :: rest)) = .ok (label, rest) :=
  closedBy_eq_ok_iff.2 ⟨rfl, h⟩

/-- A label of digits needs no brace where no digit follows, and none where
there is no digit either. -/
theorem breakLabel_digits (hl : ∀ c ∈ label, Text.isDigit c = true)
    (hr : ∀ c ∈ rest.head?, Text.isDigit c = false ∧ c ≠ '{') :
    breakLabel (label ++ rest) = .ok (label, rest) := by
  have cut := span_append_stop hl fun c hc => (hr c hc).1
  unfold breakLabel
  split
  · next t he =>
    cases label with
    | nil =>
      have he : rest = '{' :: t := he
      exact absurd rfl (hr '{' (by rw [he]; rfl)).2
    | cons c label =>
      cases he
      exact absurd (hl '{' List.mem_cons_self) (by decide)
  · rw [cut]

/-- The label of a page outside a word is one that can stand without braces,
or holds no brace that would end it. -/
theorem of_pageLabel (h : pageLabel t = .ok (label, rest)) :
    '}' ∉ label ∨ BreakKind.page.bareLabel label = true := by
  unfold pageLabel at h
  split at h
  · exact .inl (closedBy_eq_ok_iff.1 h).2
  · next hne =>
    right
    have notBlank := all_of_span (Except.ok.inj h)
    cases h
    simp only [BreakKind.bareLabel, Bool.not_eq_true', Bool.or_eq_false_iff, List.any_eq_false]
    refine ⟨?_, fun c hc => by simpa using notBlank c hc⟩
    cases t with
    | nil => rfl
    | cons c t =>
      have hc : c ≠ '{' := fun he => hne t (by rw [he])
      by_cases hb : isBlank c = true
      · simp [hb]
      · simp [hb, hc]

theorem pageLabel_braced (h : '}' ∉ label) (rest : Text) :
    pageLabel ('{' :: (label ++ '}' :: rest)) = .ok (label, rest) :=
  closedBy_eq_ok_iff.2 ⟨rfl, h⟩

/-- A page label without blanks that starts with no brace reads back before a
blank or the end. -/
theorem pageLabel_bare (hl : BreakKind.page.bareLabel label = true)
    (hr : ∀ c ∈ rest.head?, isBlank c = true ∧ c ≠ '{') :
    pageLabel (label ++ rest) = .ok (label, rest) := by
  simp only [BreakKind.bareLabel, Bool.not_eq_true', Bool.or_eq_false_iff, List.any_eq_false,
    Bool.not_eq_true] at hl
  have cut : Text.span (fun c => !isBlank c) (label ++ rest) = (label, rest) := by
    refine span_append_stop (fun c hc => ?_) (fun c hc => ?_)
    · rw [hl.2 c hc]; rfl
    · rw [(hr c hc).1]; rfl
  unfold pageLabel
  split
  · next t he =>
    cases label with
    | nil =>
      have he : rest = '{' :: t := he
      exact absurd rfl (hr '{' (by rw [he]; rfl)).2
    | cons c label =>
      cases he
      simp at hl
  · rw [cut]

theorem entityName?_eq_some_iff : entityName? t = some (name, rest)
    ↔ t = name ++ ':' :: rest ∧ name ≠ [] ∧ ∀ c ∈ name, isNameChar c = true := by
  constructor
  · intro h
    have whole := Text.span_append isNameChar t
    unfold entityName? at h
    split at h
    · cases h
    · next n r hne hs =>
      cases h
      rw [hs] at whole
      exact ⟨whole.symm, hne, all_of_span hs⟩
    · cases h
  · rintro ⟨rfl, hne, hn⟩
    have colon : ∀ c ∈ (':' :: rest).head?, isNameChar c = false := by
      intro c hc
      cases hc
      decide
    have cut := span_append_stop hn colon
    unfold entityName?
    rw [cut]
    cases name with
    | nil => exact absurd rfl hne
    | cons c name => rfl

end Readers

end Transcription.Lexer
