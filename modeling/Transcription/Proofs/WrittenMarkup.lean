/-
Transcription.Proofs.WrittenMarkup — plain markup is read as the tree it was written
from.

Markup is plain when its names have no qualifier, when nothing in its texts and values
stands for something else, and when no two texts stand side by side (`Node.Plain`). Its
tokens are then those of the tree (`tokens_write`): tag after tag, and each text in one
piece. With nothing declared, a plain tag begins an element that is just this tag
(`begin?_plain`), and building the tokens of nodes adds these nodes
(`foldlM_tokensAll`).

**`read?_write`** says it of a document that is one plain element. It and the same for an
element that is written with two tags around nothing (`read?_hollow`) are all that is asked of
a reader of markup elsewhere (`ReadsPlain`).
-/
import Mathlib.Data.List.Nodup
import Transcription.Proofs.Nesting
import Transcription.Proofs.Separation
import Transcription.Xml.Reader

namespace Transcription

/-! ## 1. Ranges in ranges -/

theorem Unicode.Ranges.covers_of_mem {ranges : Ranges} {range : Nat × Nat} {n : Nat}
    (sorted : ranges.Pairwise fun r s => r.1 ≤ s.1) (hm : range ∈ ranges) (low : range.1 ≤ n)
    (high : n ≤ range.2) : ranges.covers n = true := by
  induction ranges with
  | nil => cases hm
  | cons first ranges ih =>
    obtain ⟨least, sorted⟩ := List.pairwise_cons.1 sorted
    rw [covers]
    rcases List.mem_cons.1 hm with rfl | hm
    · rw [if_neg (by omega), if_pos high]
    · have := least range hm
      rw [if_neg (by omega)]
      split
      · rfl
      · exact ih sorted hm

/-- What is found stands in the text. -/
theorem Text.cut?_eq {mark before rest : Text} :
    ∀ {t : Text}, cut? mark t = some (before, rest) → t = before ++ mark ++ rest := by
  intro t
  induction t generalizing before with
  | nil =>
    intro h
    obtain ⟨r, hr, he⟩ := Option.map_eq_some_iff.1 h
    cases he
    exact Lexer.after?_eq_some_iff.1 hr
  | cons c t ih =>
    intro h
    simp only [cut?] at h
    split at h
    · next r hr =>
      cases h
      exact Lexer.after?_eq_some_iff.1 hr
    · obtain ⟨⟨b, r⟩, hb, he⟩ := Option.map_eq_some_iff.1 h
      cases he
      rw [ih hb]
      rfl

theorem Text.holds_eq_false {mark t : Text} {c : Char} (hm : c ∈ mark) (ht : c ∉ t) :
    holds t mark = false := by
  rw [holds, Option.isSome_eq_false_iff, Option.isNone_iff_eq_none,
    Option.eq_none_iff_forall_ne_some]
  intro found hf
  rw [Text.cut?_eq hf] at ht
  exact ht (List.mem_append_left _ (List.mem_append_right _ hm))

namespace Xml

open Lexer

/-- What lies in ranges that lie in those of a document may stand in one. -/
theorem isDocumentPoint_of_covers {ranges : Unicode.Ranges} {n : Nat}
    (inside : ∀ r ∈ ranges, ∃ s ∈ documentRanges, s.1 ≤ r.1 ∧ r.2 ≤ s.2)
    (h : ranges.covers n = true) : isDocumentPoint n = true := by
  obtain ⟨r, hr, low, high⟩ := exists_range_of_covers h
  obtain ⟨s, hs, first, last⟩ := inside r hr
  have sorted : documentRanges.Pairwise fun r s => r.1 ≤ s.1 := by decide
  exact Unicode.Ranges.covers_of_mem sorted hs (by omega) (by omega)

theorem isDocumentPoint_of_isNameStart {c : Char} (h : isNameStart c = true) :
    isDocumentPoint c.toNat = true :=
  isDocumentPoint_of_covers (by decide) h

/-! ## 2. Plain markup -/

/-- A character that stands for itself in the texts and values of a document. -/
def IsPlainChar (c : Char) : Prop :=
  isDocumentPoint c.toNat = true ∧ c ≠ '\r' ∧ Markup.escapeChar c = [c]

/-- A name of one part. -/
def IsPlainName (name : Text) : Prop :=
  name ≠ [] ∧ ∀ c ∈ name, isNameStart c = true

/-- A tag with the names it is written with and no others, whose attributes declare
nothing. -/
structure Tag.Plain (tag : Tag) : Prop where
  name : tag.name.qualifier = [] ∧ IsPlainName tag.name.base
  alone : tag.space = [] ∧ tag.defaults = []
  attrs : ∀ a ∈ tag.attrs, IsPlainName a.1 ∧ a.1 ≠ ("xmlns" : Text)
    ∧ ∀ c ∈ a.2, IsPlainChar c ∧ (isSpace c = true → c = ' ')
  distinct : (tag.attrs.map Prod.fst).Nodup

/-- Whether a node is text. -/
def Node.isText : Node → Bool
  | .text _ => true
  | _ => false

mutual

/-- A node that is read as it is written. -/
def Node.Plain : Node → Prop
  | .text t => t ≠ [] ∧ ∀ c ∈ t, IsPlainChar c
  | .element tag children => tag.Plain ∧ PlainAll children
  | _ => False

/-- Nodes that are read as they are written: text is followed by something else. -/
def PlainAll : List Node → Prop
  | [] => True
  | n :: ns => n.Plain ∧ (n.isText = true → ∀ m ∈ ns.head?, m.isText = false) ∧ PlainAll ns

end

section Plain

variable {c : Char} {t name value rest : Text} {tag : Tag} {attrs : Table Text}

theorem isPlainName_of_check (h : (!name.isEmpty && name.all isNameStart) = true) :
    IsPlainName name := by
  obtain ⟨hne, hs⟩ := Bool.and_eq_true_iff.1 h
  exact ⟨by simpa using hne, List.all_eq_true.1 hs⟩

theorem IsPlainChar.ne (h : IsPlainChar c) : c ≠ '<' ∧ c ≠ '&' ∧ c ≠ '>' ∧ c ≠ '\x22' := by
  have other (d : Char) (hd : Markup.escapeChar d ≠ [d]) : c ≠ d := by
    rintro rfl
    exact hd h.2.2
  exact ⟨other _ (by decide), other _ (by decide), other _ (by decide), other _ (by decide)⟩

theorem escape_plain (h : ∀ c ∈ t, IsPlainChar c) : Markup.escape t = t := by
  induction t with
  | nil => rfl
  | cons c t ih =>
    obtain ⟨hc, ht⟩ := List.forall_mem_cons.1 h
    rw [Markup.escape, List.flatMap_cons, hc.2.2, ← Markup.escape, ih ht]
    rfl

theorem escapeText_plain (h : ∀ c ∈ t, IsPlainChar c) : Markup.escapeText t = t := by
  induction t with
  | nil => rfl
  | cons c t ih =>
    obtain ⟨hc, ht⟩ := List.forall_mem_cons.1 h
    obtain ⟨less, and, greater, -⟩ := hc.ne
    rw [Markup.escapeText, List.flatMap_cons, ← Markup.escapeText, ih ht, Markup.escapeTextChar,
      if_neg and, if_neg less, if_neg greater]
    rfl

theorem isNameStart_delimiter :
    ∀ c ∈ ['!', '?', '/', '>', ':', ' ', '\t', '\n', '\r'], isNameStart c = false :=
  Text.forall_of_check (by decide)

theorem ne_of_isNameStart (h : isNameStart c = true) {d : Char}
    (hd : d ∈ ['!', '?', '/', '>', ':', ' ', '\t', '\n', '\r']) : c ≠ d := by
  rintro rfl
  rw [isNameStart_delimiter c hd] at h
  cases h

theorem skipSpace_of_isNameStart (h : isNameStart c = true) (t : Text) :
    skipSpace (c :: t) = c :: t := by
  have solid : isSpace c = false := by simp [isSpace, ne_of_isNameStart h]
  simp [skipSpace, solid]

/-! ## 3. Names and attributes -/

/-- The parts of attributes as they are read: each character of a value for itself. -/
def pieces (attrs : Table Text) : List (QName × List Piece) :=
  attrs.map fun (name, value) => (⟨[], name⟩, value.map .char)

/-- A name of one part is read up to the sign after it. -/
theorem qualifiedName?_plain (hn : IsPlainName name)
    (hr : ∀ c ∈ rest.head?, isNameRest c = false) :
    qualifiedName? (name ++ rest) = some (⟨[], name⟩, rest) := by
  obtain ⟨hne, start⟩ := hn
  obtain ⟨c, name, rfl⟩ := List.exists_cons_of_ne_nil hne
  obtain ⟨hc, more⟩ := List.forall_mem_cons.1 start
  have stops : ∀ d ∈ rest.head?, isNameMore d = false ∧ d ≠ ':' := by
    simpa [isNameRest] using hr
  have read : Text.span isNameMore (name ++ rest) = (name, rest) :=
    span_append_stop (fun d hd => by simp [isNameMore, more d hd]) fun d hd => (stops d hd).1
  have simple : simpleName? (c :: name ++ rest) = some (c :: name, rest) := by
    simp [simpleName?, nameBy?, hc, read]
  have proper : properName? (c :: name ++ rest) = some (⟨[], c :: name⟩, rest) := by
    unfold properName?
    rw [simple]
    split
    · next hs =>
      cases hs
      exact absurd rfl (stops ':' rfl).2
    · rfl
  rw [qualifiedName?, proper]
  rfl

theorem pieces?_plain (h : ∀ c ∈ value, IsPlainChar c ∧ (isSpace c = true → c = ' ')) :
    attributePieces? value = some (value.map .char) := by
  unfold attributePieces?
  induction value with
  | nil => rfl
  | cons c value ih =>
    obtain ⟨⟨plain, blank⟩, hv⟩ := List.forall_mem_cons.1 h
    obtain ⟨less, and, -, -⟩ := plain.ne
    have same : (if isSpace c then ' ' else c) = c := by
      split
      · next hs => exact (blank hs).symm
      · rfl
    rw [List.length_cons, pieces?, if_neg less, ih hv, same]
    · rfl
    · exact and

/-- One attribute is read, and then what follows it. -/
theorem startRest?_attr {fuel : Nat} (hn : IsPlainName name)
    (hv : ∀ c ∈ value, IsPlainChar c ∧ (isSpace c = true → c = ' ')) (rest : Text) :
    startRest? (fuel + 1) (Markup.attr name value ++ rest)
      = (startRest? fuel rest).map fun (attrs, closed, after) =>
          ((⟨[], name⟩, value.map .char) :: attrs, closed, after) := by
  obtain ⟨c, more, rfl⟩ := List.exists_cons_of_ne_nil hn.1
  have hc := hn.2 c List.mem_cons_self
  have shape : Markup.attr (c :: more) value ++ rest
      = ' ' :: (c :: more ++ '=' :: '\x22' :: (value ++ '\x22' :: rest)) := by
    have parts : Markup.attr (c :: more) value
        = ' ' :: (c :: more) ++ ['=', '\x22'] ++ Markup.escape value ++ ['\x22'] := rfl
    rw [parts, escape_plain fun d hd => (hv d hd).1]
    simp
  have named := @qualifiedName?_plain (c :: more) ('=' :: '\x22' :: (value ++ '\x22' :: rest)) hn
    (by rintro d ⟨⟩; exact Markup.isNameRest_delimiter _ (by simp))
  have quote : '\x22' ∉ value := fun hm => (hv _ hm).1.ne.2.2.2 rfl
  have quoted : quotedText? ('\x22' :: (value ++ '\x22' :: rest)) = some (value, rest) :=
    upTo?_append quote rest
  have equals : afterEquals? ('=' :: '\x22' :: (value ++ '\x22' :: rest))
      = some ('\x22' :: (value ++ '\x22' :: rest)) := rfl
  have start : skipSpace (' ' :: (c :: more ++ '=' :: '\x22' :: (value ++ '\x22' :: rest)))
      = c :: more ++ '=' :: '\x22' :: (value ++ '\x22' :: rest) :=
    skipSpace_of_isNameStart hc _
  have after : afterSpace? (' ' :: (c :: more ++ '=' :: '\x22' :: (value ++ '\x22' :: rest)))
      = some (c :: more ++ '=' :: '\x22' :: (value ++ '\x22' :: rest)) :=
    congrArg some (skipSpace_of_isNameStart hc _)
  rw [shape, startRest?, start]
  split
  · next he => exact absurd (List.cons.inj he).1 (ne_of_isNameStart hc (by simp))
  · next he => exact absurd (List.cons.inj he).1 (ne_of_isNameStart hc (by simp))
  · simp only [after, named, equals, quoted, pieces?_plain hv, Option.bind_eq_bind,
      Option.bind_some]
    cases startRest? fuel rest <;> rfl

/-- All attributes are read up to the end of the tag. -/
theorem startRest?_attributes (h : ∀ a ∈ attrs, IsPlainName a.1 ∧ a.1 ≠ ("xmlns" : Text)
      ∧ ∀ c ∈ a.2, IsPlainChar c ∧ (isSpace c = true → c = ' ')) {closed : Bool} {after : Text}
    (hend : ∀ fuel, startRest? (fuel + 1) rest = some ([], closed, after)) :
    ∀ {fuel : Nat}, attrs.length < fuel →
      startRest? fuel (Markup.attributes attrs ++ rest) = some (pieces attrs, closed, after) := by
  induction attrs with
  | nil =>
    intro fuel hf
    obtain ⟨fuel, rfl⟩ := Nat.exists_eq_succ_of_ne_zero (Nat.ne_of_gt hf)
    exact hend fuel
  | cons a attrs ih =>
    intro fuel hf
    obtain ⟨fuel, rfl⟩ := Nat.exists_eq_succ_of_ne_zero (Nat.ne_of_gt (Nat.zero_lt_of_lt hf))
    obtain ⟨⟨hn, -, hv⟩, hs⟩ := List.forall_mem_cons.1 h
    have shape : Markup.attributes (a :: attrs) ++ rest
        = Markup.attr a.1 a.2 ++ (Markup.attributes attrs ++ rest) := by
      simp [Markup.attributes]
    rw [shape, startRest?_attr hn hv, ih hs (Nat.lt_of_succ_lt_succ hf)]
    rfl

theorem length_le_attributes (attrs : Table Text) :
    attrs.length ≤ (Markup.attributes attrs).length := by
  induction attrs with
  | nil => exact Nat.zero_le _
  | cons a attrs ih =>
    have shape : Markup.attributes (a :: attrs) = Markup.attr a.1 a.2 ++ Markup.attributes attrs :=
      List.flatMap_cons
    have one : 1 ≤ (Markup.attr a.1 a.2).length := by simp [Markup.attr]
    rw [shape, List.length_append, List.length_cons]
    omega

/-- After a name come the attributes or the end of the tag. -/
theorem head?_attributes (hr : ∀ c ∈ rest.head?, isNameRest c = false) (attrs : Table Text) :
    ∀ c ∈ (Markup.attributes attrs ++ rest).head?, isNameRest c = false := by
  cases attrs with
  | nil => exact hr
  | cons a attrs =>
    rintro c ⟨⟩
    exact Markup.isNameRest_delimiter ' ' (by simp)

/-! ## 4. Tokens -/

theorem write_of_plain (h : tag.Plain) : tag.name.write = tag.name.base := by
  rw [QName.write, h.name.1]
  rfl

theorem name_of_plain (h : tag.Plain) : tag.name = ⟨[], tag.name.base⟩ := by
  obtain ⟨⟨qualifier, base⟩, space, attrs, defaults⟩ := tag
  rw [QName.mk.injEq]
  exact ⟨h.name.1, rfl⟩

theorem token?_text (hne : t ≠ []) (ht : ∀ c ∈ t, IsPlainChar c) (hr : ∀ c ∈ rest.head?, c = '<') :
    token? (t ++ rest) = some (.chars t, rest) := by
  have plain : ∀ c ∈ t, (decide (c ≠ '<') && decide (c ≠ '&')) = true := fun c hc => by
    simp [(ht c hc).ne]
  have stops : ∀ c ∈ rest.head?, (decide (c ≠ '<') && decide (c ≠ '&')) = false := fun c hc => by
    simp [hr c hc]
  have noEnd : Text.holds t "]]>" = false :=
    Text.holds_eq_false (c := '>') (by decide) fun hm => (ht _ hm).ne.2.2.1 rfl
  have read : chars? (t ++ rest) = some (.chars t, rest) := by
    rw [chars?, span_append_stop plain stops]
    exact if_neg (by rw [noEnd]; decide)
  obtain ⟨c, t, rfl⟩ := List.exists_cons_of_ne_nil hne
  obtain ⟨less, and, -⟩ := (ht c List.mem_cons_self).ne
  rw [← read, List.cons_append]
  unfold token?
  split
  all_goals first | rfl | (next he => exact absurd (List.cons.inj he).1 (by assumption))

theorem token?_startTag (hc : isNameStart c = true) (t : Text) :
    token? ('<' :: c :: t) = startTag? (c :: t) := by
  have bang : c ≠ '!' := ne_of_isNameStart hc (by simp)
  have question : c ≠ '?' := ne_of_isNameStart hc (by simp)
  have stroke : c ≠ '/' := ne_of_isNameStart hc (by simp)
  rw [token?]
  · rintro u he
    exact bang (List.cons.inj he).1
  · rintro u he
    exact bang (List.cons.inj he).1
  · rintro u he
    exact question (List.cons.inj he).1
  · rintro u he
    exact stroke (List.cons.inj he).1

/-- A start tag is read up to its end. -/
theorem token?_start (h : tag.Plain) {closed : Bool} {after : Text}
    (hr : ∀ c ∈ rest.head?, isNameRest c = false)
    (hend : ∀ fuel, startRest? (fuel + 1) rest = some ([], closed, after)) :
    token? ('<' :: tag.name.write ++ Markup.attributes tag.attrs ++ rest)
      = some (.start tag.name (pieces tag.attrs) closed, after) := by
  have named := qualifiedName?_plain h.name.2 (head?_attributes hr tag.attrs)
  have enough : tag.attrs.length < (Markup.attributes tag.attrs ++ rest).length + 1 := by
    have shorter := length_le_attributes tag.attrs
    rw [List.length_append]
    omega
  have read := startRest?_attributes h.attrs hend enough
  obtain ⟨c, more, hb⟩ := List.exists_cons_of_ne_nil h.name.2.1
  have hc := h.name.2.2 c (hb ▸ List.mem_cons_self)
  rw [write_of_plain h, List.cons_append, List.cons_append, List.append_assoc, hb, List.cons_append,
    token?_startTag hc, ← List.cons_append, ← hb, startTag?, named]
  simp only [Option.bind_eq_bind, Option.bind_some, read, ← name_of_plain h]

theorem token?_opening (h : tag.Plain) (rest : Text) :
    token? (tag.opening ++ rest) = some (.start tag.name (pieces tag.attrs) false, rest) := by
  rw [Tag.opening, List.append_assoc]
  refine token?_start h ?_ fun fuel => rfl
  rintro c ⟨⟩
  exact Markup.isNameRest_delimiter '>' (by decide)

theorem token?_empty (h : tag.Plain) (rest : Text) :
    token? (tag.empty ++ rest) = some (.start tag.name (pieces tag.attrs) true, rest) := by
  rw [Tag.empty, List.append_assoc]
  refine token?_start h ?_ fun fuel => rfl
  rintro c ⟨⟩
  exact Markup.isNameRest_delimiter '/' (by decide)

theorem token?_closing (h : tag.Plain) (rest : Text) :
    token? (tag.closing ++ rest) = some (.stop tag.name, rest) := by
  have named := @qualifiedName?_plain tag.name.base ('>' :: rest) h.name.2
    (by rintro c ⟨⟩; exact Markup.isNameRest_delimiter _ (by simp))
  have shape : tag.closing ++ rest = '<' :: '/' :: (tag.name.base ++ '>' :: rest) := by
    rw [Tag.closing, write_of_plain h]
    simp
  have ended : endTag? (tag.name.base ++ '>' :: rest) = some (.stop tag.name, rest) := by
    rw [endTag?, named]
    exact congrArg (fun name => some (Token.stop name, rest)) (name_of_plain h).symm
  rw [shape, ← ended]
  rfl

end Plain

mutual

/-- The tokens of a plain node. -/
def Node.tokens : Node → List Token
  | .text t => [.chars t]
  | .element tag [] => [.start tag.name (pieces tag.attrs) true]
  | .element tag (child :: children) =>
      .start tag.name (pieces tag.attrs) false :: (child.tokens ++ tokensAll children)
        ++ [.stop tag.name]
  | _ => []

/-- The tokens of plain nodes one after the other. -/
def tokensAll : List Node → List Token
  | [] => []
  | n :: ns => n.tokens ++ tokensAll ns

end

/-- A text has these tokens, with any fuel that is enough for its length. -/
def Tokenized (t : Text) (ts : List Token) : Prop :=
  ∀ fuel, t.length ≤ fuel → tokensFrom? fuel t = some ts

section Tokens

variable {t rest : Text} {ts : List Token} {token : Token} {n : Node} {ns : List Node}

theorem tokenized_nil : Tokenized [] [] := by
  intro fuel _
  cases fuel <;> rfl

theorem Tokenized.cons (hr : Tokenized rest ts) (h : token? (t ++ rest) = some (token, rest))
    (hne : t ≠ []) : Tokenized (t ++ rest) (token :: ts) := by
  obtain ⟨c, t, rfl⟩ := List.exists_cons_of_ne_nil hne
  intro fuel hf
  rw [List.length_append, List.length_cons] at hf
  obtain ⟨fuel, rfl⟩ := Nat.exists_eq_succ_of_ne_zero (show fuel ≠ 0 by omega)
  rw [List.cons_append] at h ⊢
  simp only [tokensFrom?, List.isEmpty_cons, Bool.false_eq_true, if_false, h, hr fuel (by omega),
    Option.bind_eq_bind, Option.bind_some]

theorem head?_write (h : n.Plain) (ht : n.isText = false) : n.write.head? = some '<' := by
  cases n with
  | element tag children => cases children <;> rfl
  | text t => cases ht
  | comment _ | reference _ | instruction => exact absurd h id

/-- Content that begins with a tag, or is empty. -/
theorem head?_writeAll (h : PlainAll ns) (ht : ∀ n ∈ ns.head?, n.isText = false)
    (hr : ∀ c ∈ rest.head?, c = '<') : ∀ c ∈ (writeAll ns ++ rest).head?, c = '<' := by
  cases ns with
  | nil => exact hr
  | cons n ns =>
    intro c hc
    have first : (writeAll (n :: ns) ++ rest).head? = some '<' := by
      rw [writeAll, List.append_assoc, List.head?_append, head?_write h.1 (ht n rfl)]
      rfl
    rw [first] at hc
    cases hc
    rfl

mutual

theorem tokenized_write : ∀ (n : Node), n.Plain → ∀ {rest : Text} {ts : List Token},
    Tokenized rest ts → (n.isText = true → ∀ c ∈ rest.head?, c = '<') →
      Tokenized (n.write ++ rest) (n.tokens ++ ts)
  | .text t, ⟨hne, ht⟩, rest, ts, hr, hs => by
    rw [Node.write, escapeText_plain ht]
    exact hr.cons (token?_text hne ht (hs rfl)) hne
  | .element tag [], ⟨htag, _⟩, rest, ts, hr, _ => by
    rw [Node.write]
    exact hr.cons (token?_empty htag rest) nofun
  | .element tag (child :: children), ⟨htag, inner⟩, rest, ts, hr, _ => by
    have closed := hr.cons (token?_closing htag rest) nofun
    have content := tokenized_writeAll (child :: children) inner closed (by rintro c ⟨⟩; rfl)
    have whole := content.cons (token?_opening htag _) nofun
    have text : (Node.element tag (child :: children)).write ++ rest
        = tag.opening ++ (writeAll (child :: children) ++ (tag.closing ++ rest)) := by
      simp only [Node.write, writeAll, List.append_assoc]
    have tokens : (Node.element tag (child :: children)).tokens ++ ts
        = .start tag.name (pieces tag.attrs) false
          :: (tokensAll (child :: children) ++ .stop tag.name :: ts) := by
      simp only [Node.tokens, tokensAll, List.append_assoc, List.cons_append, List.nil_append]
    rw [text, tokens]
    exact whole
  | .comment _, h, _, _, _, _ | .reference _, h, _, _, _, _ | .instruction, h, _, _, _, _ =>
    absurd h id

theorem tokenized_writeAll : ∀ (ns : List Node), PlainAll ns → ∀ {rest : Text} {ts : List Token},
    Tokenized rest ts → (∀ c ∈ rest.head?, c = '<') →
      Tokenized (writeAll ns ++ rest) (tokensAll ns ++ ts)
  | [], _, _, _, hr, _ => hr
  | n :: ns, ⟨hn, apart, hns⟩, rest, ts, hr, hs => by
    have after := tokenized_writeAll ns hns hr hs
    rw [writeAll, tokensAll, List.append_assoc, List.append_assoc]
    exact tokenized_write n hn after fun ht => head?_writeAll hns (apart ht) hs

end

/-- The tokens of a plain node are read back. -/
theorem tokens?_write (h : n.Plain) : tokens? n.write = some n.tokens := by
  have whole := tokenized_write n h tokenized_nil (fun _ => nofun)
  rw [List.append_nil, List.append_nil] at whole
  exact whole _ (Nat.le_refl _)

end Tokens

/-! ## 5. Building -/

namespace Building

variable {l : Lexicon} {depth : Nat} {read : Building → Text → Option Building} {b : Building}
  {tag : Tag} {name t : Text} {attrs : Table Text}

/-- A plain attribute, put together. -/
def plainAttribute (a : Text × Text) : Attribute :=
  ⟨⟨[], a.1⟩, .plain, a.2, true⟩

theorem ofName_plain (hn : IsPlainName name) : Notice.ofName ⟨[], name⟩ = [] := by
  have noColon : ':' ∉ name := fun hm => ne_of_isNameStart (hn.2 _ hm) (by simp) rfl
  simp [Notice.ofName, Notice.ofPlainName, noColon]

theorem declaration?_plain (hx : name ≠ ("xmlns" : Text)) (value : Text) :
    declaration? (⟨[], name⟩, value) = none := by
  rw [declaration?, if_neg (show ¬([] : Text) = ("xmlns" : Text) by decide), if_neg fun h => hx h.2]

theorem names_plain (value : Text) : (value.map Piece.char).filterMap Piece.name? = [] := by
  induction value with
  | nil => rfl
  | cons c value ih => exact ih

theorem valueText_plain (l : Lexicon) (u : Uses) (value : Text) :
    l.valueText u (value.map .char) = value := by
  induction value with
  | nil => rfl
  | cons c value ih => exact congrArg (c :: ·) ih

/-- A plain attribute is put together from its characters, without notice. -/
theorem attribute?_plain (hl : l.declarations = .empty) (hn : IsPlainName name)
    (hx : name ≠ ("xmlns" : Text)) (depth : Nat) (element : QName) (value : Text) (b : Building) :
    b.attribute? l depth element ⟨[], name⟩ (value.map .char)
      = some (plainAttribute (name, value), b) := by
  have kind : l.declarations.kind element ⟨[], name⟩ = .plain := by rw [hl]; rfl
  have made (u : Uses) : Attribute.ofPieces l u ⟨[], name⟩ .plain (value.map .char)
      = plainAttribute (name, value) := by
    simp only [Attribute.ofPieces, valueText_plain, names_plain]
    rfl
  have silent : (plainAttribute (name, value)).notices = [] := by
    simp only [Attribute.notices, plainAttribute, Attribute.pair, declaration?_plain hx]
    rfl
  simp only [attribute?, kind, if_true, names_plain, List.foldlM_nil, Option.pure_def,
    Option.bind_eq_bind, Option.bind_some, made, silent, ofName_plain hn]
  rfl

theorem attributes?_plain (hl : l.declarations = .empty)
    (h : ∀ a ∈ attrs, IsPlainName a.1 ∧ a.1 ≠ ("xmlns" : Text)) (depth : Nat) (element : QName)
    (b : Building) :
    b.attributes? l depth element (pieces attrs) = some (attrs.map plainAttribute, b) := by
  induction attrs with
  | nil => rfl
  | cons a attrs ih =>
    obtain ⟨⟨hn, hx⟩, hs⟩ := List.forall_mem_cons.1 h
    have shape : pieces (a :: attrs) = (⟨[], a.1⟩, a.2.map .char) :: pieces attrs := rfl
    rw [shape, attributes?, attribute?_plain hl hn hx]
    simp only [Option.bind_eq_bind, Option.bind_some, ih hs]
    rfl

theorem repeated_of_nodup {α : Type} [DecidableEq α] {as : List α} (h : as.Nodup) :
    repeated as = [] := by
  induction as with
  | nil => rfl
  | cons a as ih =>
    obtain ⟨ha, hs⟩ := List.nodup_cons.1 h
    simp [repeated, ha, ih hs]

/-- A plain attribute, with its name as it was read. -/
def plainPair (a : Text × Text) : QName × Text :=
  (⟨[], a.1⟩, a.2)

/-- A plain attribute, resolved. -/
def plainResolved (a : Text × Text) : Resolved :=
  ⟨[], a.1, a.1, a.2⟩

theorem valueIn_plain (distinct : (attrs.map Prod.fst).Nodup) {a : Text × Text} (ha : a ∈ attrs) :
    (plainResolved a).valueIn (attrs.map plainResolved) = a.2 := by
  rw [Resolved.valueIn]
  cases hf : (attrs.map plainResolved).find? fun b =>
    b.space = (plainResolved a).space && b.base = (plainResolved a).base with
  | none =>
    have absent := List.find?_eq_none.1 hf _ (List.mem_map_of_mem ha)
    simp at absent
  | some found =>
    obtain ⟨b, hb, rfl⟩ := List.mem_map.1 (List.mem_of_find?_eq_some hf)
    have key : b.1 = a.1 := by
      have same := List.find?_some hf
      simp only [plainResolved, decide_true, Bool.true_and] at same
      exact of_decide_eq_true same
    rw [List.inj_on_of_nodup_map distinct hb ha key]
    rfl

theorem values_plain (distinct : (attrs.map Prod.fst).Nodup) :
    (attrs.map plainResolved).map
      (fun a => (a.written, a.valueIn (attrs.map plainResolved))) = attrs := by
  rw [List.map_map]
  refine (List.map_congr_left fun a ha => ?_).trans (List.map_id _)
  exact Prod.ext rfl (valueIn_plain distinct ha)

/-- Names that differ stay apart with whatever is put to each of them. -/
theorem repeated_names {α : Type} [DecidableEq α] {f : Text → α} (inj : Function.Injective f)
    (distinct : (attrs.map Prod.fst).Nodup) : repeated (attrs.map fun a => f a.1) = [] := by
  have keys := distinct.map inj
  rw [List.map_map] at keys
  exact repeated_of_nodup keys

theorem unknown_plain (h : tag.Plain) :
    Scope.unknown [] (tag.name :: (tag.attrs.map plainPair).map Prod.fst) = [] := by
  refine List.filter_eq_nil_iff.2 fun q hq => ?_
  rw [List.map_cons, List.map_map, List.map_map, h.name.1] at hq
  have none : q = [] := by
    rcases List.mem_cons.1 hq with rfl | hq
    · rfl
    · obtain ⟨a, -, rfl⟩ := List.mem_map.1 hq
      rfl
  rw [none]
  decide

/-- The names of a plain tag resolve to themselves where nothing is declared. -/
theorem start?_plain (h : tag.Plain) :
    Scope.start? [] [] tag.name (tag.attrs.map plainPair) = some ⟨tag, [], 0⟩ := by
  have undeclared : ∀ a ∈ tag.attrs.map plainPair, declaration? a = none := by
    simp only [List.forall_mem_map]
    exact fun a ha => declaration?_plain (h.attrs a ha).2.1 a.2
  have noDeclarations : declarations (tag.attrs.map plainPair) = [] := by
    rw [declarations, List.filterMap_eq_nil_iff.2 undeclared]
    rfl
  have others : (tag.attrs.map plainPair).filter (fun a => (declaration? a).isNone)
      = tag.attrs.map plainPair :=
    List.filter_eq_self.2 fun a ha => by rw [undeclared a ha]; rfl
  have resolved : (tag.attrs.map plainPair).map (Scope.attribute [])
      = tag.attrs.map plainResolved := List.map_map
  have names : repeated ((tag.attrs.map plainPair).map Prod.fst) = [] := by
    rw [List.map_map]
    exact repeated_names (f := fun base => (⟨[], base⟩ : QName))
      (fun _ _ he => (QName.mk.inj he).2) h.distinct
  have places : repeated ((tag.attrs.map plainPair).map fun a =>
      ((Scope.attribute [] a).space, (Scope.attribute [] a).base)) = [] := by
    rw [List.map_map]
    exact repeated_names (f := fun base => (([], base) : Text × Text))
      (fun _ _ he => (Prod.mk.inj he).2) h.distinct
  have element : Scope.element [] tag.name = (tag.name, []) := by
    rw [name_of_plain h]
    rfl
  have whole : (⟨tag.name, [], tag.attrs, []⟩ : Tag) = tag := by
    obtain ⟨space, defaults⟩ := h.alone
    cases tag
    cases space
    cases defaults
    rfl
  simp only [Scope.start?, noDeclarations, others, resolved, List.filterMap_nil, List.filter_nil,
    List.append_nil, List.map_nil, names, repeated, List.isEmpty_nil, Bool.and_self, if_true,
    element, values_plain h.distinct, places, unknown_plain h, whole, List.length_nil]

/-- A plain attribute gives its element no name. -/
theorem identify_plain (attrs : Table Text) (b : Building) :
    (attrs.map plainAttribute).foldl identify b = b := by
  induction attrs with
  | nil => rfl
  | cons a attrs ih =>
    have unnamed : (plainAttribute a).naming? b.identifiers = none := by
      simp [Attribute.naming?, Attribute.isMeta, plainAttribute]
    have same : b.identify (plainAttribute a) = b := by rw [identify, unnamed]
    rw [List.map_cons, List.foldl_cons, same, ih]

/-- A plain tag begins an element that is just this tag. -/
theorem begin?_plain (hl : l.declarations = .empty) (h : tag.Plain) (hs : b.scope = [])
    (hd : b.depth < greatestDepth) (depth : Nat) (closed : Bool) :
    b.begin? l depth tag.name (pieces tag.attrs) closed
      = some (if closed then b.add (.element tag [])
          else { b with opened := ⟨tag.name, tag, [], b.nodes⟩ :: b.opened, nodes := [] }) := by
  have attributes := attributes?_plain hl (fun a ha => ⟨(h.attrs a ha).1, (h.attrs a ha).2.1⟩)
    depth tag.name b
  have pairs : (tag.attrs.map plainAttribute).map Attribute.pair = tag.attrs.map plainPair :=
    List.map_map
  have given : l.declarations.given tag.name = [] := by rw [hl]; rfl
  have silent : b.noted [] = b := rfl
  simp only [begin?, attributes, Option.bind_eq_bind, Option.bind_some, pairs, hs, given,
    start?_plain h, List.replicate_zero, silent, identify_plain, ite_self,
    if_neg (Nat.not_le.2 hd)]
  split <;> rfl

/-! ### Steps -/

theorem step?_start (hl : l.declarations = .empty) (h : tag.Plain) (hs : b.scope = [])
    (hd : b.depth < greatestDepth) (closed : Bool) :
    step? l depth read b (.start tag.name (pieces tag.attrs) closed)
      = some (if closed then b.add (.element tag [])
          else { b with opened := ⟨tag.name, tag, [], b.nodes⟩ :: b.opened, nodes := [] }) := by
  have silent : b.noted (Token.start tag.name (pieces tag.attrs) closed).notices = b := by
    have noNotice : (Token.start tag.name (pieces tag.attrs) closed).notices = [] := by
      show Notice.ofName tag.name = []
      rw [name_of_plain h]
      exact ofName_plain h.name.2
    rw [noNotice]
    rfl
  rw [step?, silent]
  exact begin?_plain hl h hs hd depth closed

/-- Text is a node of its own after something else than text. -/
theorem step?_text (hne : t ≠ []) (hd : 0 < b.depth) (hb : ∀ m ∈ b.nodes.head?, m.isText = false) :
    step? l depth read b (.chars t) = some (b.add (.text t)) := by
  have silent : b.noted (Token.chars t).notices = b := rfl
  have added : b.addText t = b.add (.text t) := by
    have full : t.isEmpty = false := by simpa using hne
    unfold addText
    split
    · next hn => cases hb _ (by rw [hn]; rfl)
    · rw [full]
      rfl
  rw [step?, silent]
  simp only [Nat.ne_of_gt hd, if_false, added]

theorem step?_stop {scope : Scope} {before : List Node} {opened : List Open}
    (h : b.opened = ⟨tag.name, tag, scope, before⟩ :: opened) :
    step? l depth read b (.stop tag.name)
      = some { b with opened := opened, nodes := .element tag b.nodes.reverse :: before } := by
  have silent : b.noted (Token.stop tag.name).notices = b := rfl
  rw [step?, silent]
  simp only [finish?, h, if_true]

mutual

/-- Building the tokens of a plain node adds the node. -/
theorem foldlM_tokens (hl : l.declarations = .empty) : ∀ (n : Node), n.Plain → ∀ {b : Building},
    b.scope = [] → b.depth + n.depth ≤ greatestDepth →
      (n.isText = true → 0 < b.depth ∧ ∀ m ∈ b.nodes.head?, m.isText = false) →
        n.tokens.foldlM (step? l depth read) b = some (b.add n)
  | .text t, ⟨hne, _⟩, b, _, _, ht => by
    rw [Node.tokens, List.foldlM_cons, step?_text hne (ht rfl).1 (ht rfl).2]
    rfl
  | .element tag [], ⟨htag, _⟩, b, hs, hd, _ => by
    have room : b.depth < greatestDepth := by rw [Node.depth] at hd; omega
    rw [Node.tokens, List.foldlM_cons, step?_start hl htag hs room]
    rfl
  | .element tag (child :: children), ⟨htag, inner⟩, b, hs, hd, _ => by
    rw [Node.depth] at hd
    have room : b.depth < greatestDepth := by omega
    have inside : ({ b with opened := ⟨tag.name, tag, [], b.nodes⟩ :: b.opened, nodes := [] } :
        Building).depth = b.depth + 1 := rfl
    have content := foldlM_tokensAll hl (child :: children) inner
      (b := { b with opened := ⟨tag.name, tag, [], b.nodes⟩ :: b.opened, nodes := [] }) rfl
      (by rw [inside]; omega) (by rw [inside]; omega) (fun _ _ _ => nofun)
    have shape : (Node.element tag (child :: children)).tokens
        = .start tag.name (pieces tag.attrs) false
          :: (tokensAll (child :: children) ++ [.stop tag.name]) := rfl
    rw [shape, List.foldlM_cons, step?_start hl htag hs room, Option.bind_eq_bind,
      Option.bind_some, List.foldlM_append]
    simp only [Bool.false_eq_true, if_false]
    rw [content, Option.bind_eq_bind, Option.bind_some, List.foldlM_cons, step?_stop rfl]
    simp [add]
  | .comment _, h, _, _, _, _ | .reference _, h, _, _, _, _ | .instruction, h, _, _, _, _ =>
    absurd h id

/-- Building the tokens of plain nodes in something open adds these nodes. -/
theorem foldlM_tokensAll (hl : l.declarations = .empty) : ∀ (ns : List Node), PlainAll ns →
    ∀ {b : Building}, b.scope = [] → b.depth + depthAll ns ≤ greatestDepth → 0 < b.depth →
      (∀ n ∈ ns.head?, n.isText = true → ∀ m ∈ b.nodes.head?, m.isText = false) →
        (tokensAll ns).foldlM (step? l depth read) b
          = some { b with nodes := ns.reverse ++ b.nodes }
  | [], _, b, _, _, _, _ => rfl
  | n :: ns, ⟨hn, apart, hns⟩, b, hs, hd, hp, ht => by
    rw [depthAll] at hd
    have first := foldlM_tokens hl n hn (b := b) hs (by omega) fun he => ⟨hp, ht n rfl he⟩
    have rest := foldlM_tokensAll hl ns hns (b := b.add n) hs
      (by show b.depth + depthAll ns ≤ greatestDepth; omega) hp
      (by
        intro k hk he m hm
        cases hm
        cases hn' : n.isText with
        | false => rfl
        | true =>
          rw [apart hn' k hk] at he
          cases he)
    rw [tokensAll, List.foldlM_append, first, Option.bind_eq_bind, Option.bind_some, rest]
    simp [add]

end

end Building

/-! ## 6. Documents -/

section Documents

variable {c : Char} {t : Text} {tag : Tag} {children : List Node}

/-- A character of plain markup. -/
def Readable (c : Char) : Prop :=
  isDocumentPoint c.toNat = true ∧ c ≠ '\r'

instance : DecidablePred Readable := fun _ => inferInstanceAs (Decidable (_ ∧ _))

theorem readable_name {name : Text} (h : IsPlainName name) : ∀ c ∈ name, Readable c := fun c hc =>
  ⟨isDocumentPoint_of_isNameStart (h.2 c hc), ne_of_isNameStart (h.2 c hc) (by simp)⟩

theorem readable_attributes {attrs : Table Text}
    (h : ∀ a ∈ attrs, IsPlainName a.1 ∧ ∀ c ∈ a.2, IsPlainChar c) :
    ∀ c ∈ Markup.attributes attrs, Readable c := by
  intro c hc
  obtain ⟨⟨name, value⟩, ha, hc⟩ := List.mem_flatMap.1 hc
  obtain ⟨hn, hv⟩ := h _ ha
  have parts : Markup.attr name value
      = ' ' :: name ++ ['=', '\x22'] ++ Markup.escape value ++ ['\x22'] := rfl
  dsimp only at hc
  rw [parts, escape_plain hv] at hc
  simp only [List.mem_append] at hc
  have signs : ∀ d ∈ [' ', '=', '\x22'], Readable d := Text.forall_of_check (by decide)
  rcases hc with ((hc | hc) | hc) | hc
  · rcases List.mem_cons.1 hc with rfl | hc
    · exact signs _ List.mem_cons_self
    · exact readable_name hn c hc
  · exact signs c (List.mem_cons_of_mem _ hc)
  · exact ⟨(hv c hc).1, (hv c hc).2.1⟩
  · exact signs c (List.mem_cons_of_mem _ (List.mem_cons_of_mem _ hc))

theorem readable_tag (h : tag.Plain) :
    (∀ c ∈ tag.opening, Readable c) ∧ (∀ c ∈ tag.closing, Readable c)
      ∧ ∀ c ∈ tag.empty, Readable c := by
  have name := readable_name h.name.2
  rw [← write_of_plain h] at name
  have attrs := readable_attributes fun a ha =>
    ⟨(h.attrs a ha).1, fun c hc => ((h.attrs a ha).2.2 c hc).1⟩
  have less : Readable '<' := by decide
  have ends : (∀ c ∈ ">".toList, Readable c) ∧ (∀ c ∈ "</".toList, Readable c)
      ∧ ∀ c ∈ "/>".toList, Readable c :=
    ⟨Text.forall_of_check (by decide), Text.forall_of_check (by decide),
      Text.forall_of_check (by decide)⟩
  simp only [Tag.opening, Tag.closing, Tag.empty, List.forall_mem_append, List.forall_mem_cons]
  exact ⟨⟨⟨⟨less, name⟩, attrs⟩, ends.1⟩, ⟨⟨ends.2.1, name⟩, ends.1⟩, ⟨⟨less, name⟩, attrs⟩,
    ends.2.2⟩

mutual

theorem readable_write : ∀ (n : Node), n.Plain → ∀ c ∈ n.write, Readable c
  | .text t, ⟨_, ht⟩, c, hc => by
    rw [Node.write, escapeText_plain ht] at hc
    exact ⟨(ht c hc).1, (ht c hc).2.1⟩
  | .element tag [], ⟨htag, _⟩, c, hc => (readable_tag htag).2.2 c hc
  | .element tag (child :: children), ⟨htag, inner⟩, c, hc => by
    obtain ⟨opening, closing, -⟩ := readable_tag htag
    rw [Node.write_element (List.cons_ne_nil child children), List.mem_append,
      List.mem_append] at hc
    rcases hc with (hc | hc) | hc
    · exact opening c hc
    · exact readable_writeAll (child :: children) inner c hc
    · exact closing c hc
  | .comment _, h, _, _ | .reference _, h, _, _ | .instruction, h, _, _ => absurd h id

theorem readable_writeAll : ∀ (ns : List Node), PlainAll ns → ∀ c ∈ writeAll ns, Readable c
  | [], _, _, hc => absurd hc List.not_mem_nil
  | n :: ns, ⟨hn, _, hns⟩, c, hc => by
    rcases List.mem_append.1 hc with hc | hc
    · exact readable_write n hn c hc
    · exact readable_writeAll ns hns c hc

end

theorem normalizeLines_of_readable (h : ∀ c ∈ t, Readable c) : normalizeLines t = t := by
  induction t with
  | nil => rfl
  | cons c t ih =>
    obtain ⟨hc, ht⟩ := List.forall_mem_cons.1 h
    rw [normalizeLines, ih ht]
    · rintro _ rfl
      exact absurd rfl hc.2
    · exact fun he => absurd he hc.2

/-- A tag begins with the name of its element. -/
theorem exists_tag_eq (h : tag.Plain) (rest : Text) :
    ∃ c t, '<' :: tag.name.write ++ Markup.attributes tag.attrs ++ rest = '<' :: c :: t
      ∧ isNameStart c = true := by
  obtain ⟨hne, start⟩ := h.name.2
  obtain ⟨c, more, hb⟩ := List.exists_cons_of_ne_nil hne
  refine ⟨c, more ++ Markup.attributes tag.attrs ++ rest, ?_, start c (hb ▸ List.mem_cons_self)⟩
  rw [write_of_plain h, hb]
  rfl

/-- An element begins with its tag. -/
theorem exists_write_eq (h : tag.Plain) (children : List Node) :
    ∃ c t, (Node.element tag children).write = '<' :: c :: t ∧ isNameStart c = true := by
  cases children with
  | nil => exact exists_tag_eq h "/>"
  | cons child children =>
    have whole : (Node.element tag (child :: children)).write
        = '<' :: tag.name.write ++ Markup.attributes tag.attrs
          ++ (">" ++ (writeAll (child :: children) ++ tag.closing)) := by
      rw [Node.write_element (List.cons_ne_nil child children), Tag.opening, List.append_assoc,
        List.append_assoc]
    rw [whole]
    exact exists_tag_eq h _

/-- No declaration stands before an element, and no prolog. -/
theorem declarationOf?_element (hc : isNameStart c = true) (t : Text) :
    declarationOf? ('<' :: c :: t) = some (⟨none, false⟩, '<' :: c :: t) := by
  have other : '?' ≠ c := (ne_of_isNameStart hc (by simp)).symm
  have absent : Text.after? "<?xml" ('<' :: c :: t) = none := by simp [Text.after?, other]
  rw [declarationOf?, absent]

theorem prolog?_element (hc : isNameStart c = true) (standalone : Bool) (fuel : Nat)
    (tally : Tally) (t : Text) :
    prolog? standalone (fuel + 1) tally ('<' :: c :: t)
      = some (⟨.empty, tally⟩, '<' :: c :: t) := by
  have bang : '!' ≠ c := (ne_of_isNameStart hc (by simp)).symm
  have question : '?' ≠ c := (ne_of_isNameStart hc (by simp)).symm
  have space : skipSpace ('<' :: c :: t) = '<' :: c :: t := by simp [skipSpace, isSpace]
  have noType : Text.after? "<!DOCTYPE" ('<' :: c :: t) = none := by simp [Text.after?, bang]
  have noRemark : (Text.startsWith ('<' :: c :: t) "<!--"
      || Text.startsWith ('<' :: c :: t) "<?") = false := by
    simp [Text.startsWith, Text.after?, bang, question]
  rw [prolog?]
  simp only [space, noType, noRemark, Bool.false_eq_true, if_false]

/-- A document without a prolog is read as the element that is built from its tokens. -/
theorem read?_of_tokens (hc : isNameStart c = true) (readable : ∀ d ∈ '<' :: c :: t, Readable d)
    {ts : List Token} (tokens : tokens? ('<' :: c :: t) = some ts)
    (built : ∀ l : Lexicon, l.declarations = .empty →
      ts.foldlM (Building.step? l Lexicon.nesting (Building.content? l Lexicon.nesting))
        (Building.start .none) = some ((Building.start .none).add (.element tag children))) :
    read? ('<' :: c :: t) = some ⟨tag, children⟩ := by
  have read : isReadable ('<' :: c :: t) = true :=
    List.all_eq_true.2 fun d hd => (readable d hd).1
  have whole (l : Lexicon) (hl : l.declarations = .empty) :
      Building.ofTokens? l .none ts = some ⟨tag, children⟩ := by
    rw [Building.ofTokens?, built l hl]
    rfl
  have element : elementOf? false ('<' :: c :: t) = some ⟨tag, children⟩ := by
    rw [elementOf?, List.length_cons, prolog?_element hc]
    simp only [Option.bind_eq_bind, Option.bind_some, normalizeLines_of_readable readable, tokens]
    exact whole _ rfl
  rw [read?]
  · simp only [declarationOf?_element hc, Option.bind_eq_bind, Option.bind_some, read, if_true,
      element]
  · rintro _ ⟨⟩

/-- **Plain markup is read as the tree it was written from.** -/
theorem read?_write (h : (Node.element tag children).Plain)
    (hd : (Node.element tag children).depth ≤ greatestDepth) :
    read? (Node.element tag children).write = some ⟨tag, children⟩ := by
  have readable := readable_write _ h
  have tokens := tokens?_write h
  obtain ⟨c, t, shape, hc⟩ := exists_write_eq h.1 children
  rw [shape] at readable tokens ⊢
  refine read?_of_tokens hc readable tokens fun l hl => ?_
  have shallow : (Building.start .none).depth + (Node.element tag children).depth
      ≤ greatestDepth := by
    simpa [Building.start, Building.depth] using hd
  exact Building.foldlM_tokens hl _ h rfl shallow nofun

/-- Two tags with nothing between them are an element without content. -/
theorem read?_hollow {outer inner : Tag} (ho : outer.Plain) (hi : inner.Plain) :
    read? (outer.opening ++ (inner.opening ++ inner.closing) ++ outer.closing)
      = some ⟨outer, [.element inner []]⟩ := by
  have tags : ∀ tag : Tag, tag.Plain → ∀ d ∈ tag.opening ++ tag.closing, Readable d :=
    fun tag h => List.forall_mem_append.2 ⟨(readable_tag h).1, (readable_tag h).2.1⟩
  have readable : ∀ d ∈ outer.opening ++ (inner.opening ++ inner.closing) ++ outer.closing,
      Readable d := by
    have around := List.forall_mem_append.1 (tags outer ho)
    exact List.forall_mem_append.2 ⟨List.forall_mem_append.2 ⟨around.1, tags inner hi⟩, around.2⟩
  have tokens : tokens? (outer.opening ++ (inner.opening ++ inner.closing) ++ outer.closing)
      = some [.start outer.name (pieces outer.attrs) false,
          .start inner.name (pieces inner.attrs) false, .stop inner.name, .stop outer.name] := by
    have last := tokenized_nil.cons (token?_closing ho []) nofun
    have whole := ((last.cons (token?_closing hi _) nofun).cons (token?_opening hi _) nofun).cons
      (token?_opening ho _) nofun
    simp only [List.append_nil, ← List.append_assoc] at whole ⊢
    exact whole _ (Nat.le_refl _)
  obtain ⟨c, t, shape, hc⟩ : ∃ c t, outer.opening ++ (inner.opening ++ inner.closing)
      ++ outer.closing = '<' :: c :: t ∧ isNameStart c = true := by
    rw [Tag.opening, List.append_assoc, List.append_assoc]
    exact exists_tag_eq ho _
  rw [shape] at readable tokens ⊢
  refine read?_of_tokens hc readable tokens fun l hl => ?_
  let b : Building := { Building.start .none with opened := [⟨outer.name, outer, [], []⟩] }
  have first := @Building.step?_start l Lexicon.nesting (Building.content? l Lexicon.nesting)
    (Building.start .none) outer hl ho rfl (by decide) false
  have second := @Building.step?_start l Lexicon.nesting (Building.content? l Lexicon.nesting)
    b inner hl hi rfl (show 1 < greatestDepth by decide) false
  rw [if_neg Bool.false_ne_true] at first second
  rw [List.foldlM_cons, first, Option.bind_eq_bind, Option.bind_some, List.foldlM_cons]
  refine (congrArg (· >>= _) second).trans ?_
  rw [Option.bind_eq_bind, Option.bind_some, List.foldlM_cons, Building.step?_stop rfl,
    Option.bind_eq_bind, Option.bind_some, List.foldlM_cons, Building.step?_stop rfl]
  rfl

/-! ## 7. Readers -/

/-- What a reader of markup does with plain markup. -/
structure ReadsPlain (read : Text → Option Element) : Prop where
  /-- It reads the tree that the markup was written from, unless elements are nested too
  deeply. -/
  write {tag : Tag} {children : List Node} : (Node.element tag children).Plain →
    (Node.element tag children).depth ≤ greatestDepth →
      read (Node.element tag children).write = some ⟨tag, children⟩
  /-- It reads two tags with nothing between them as an element without content. -/
  hollow {outer inner : Tag} : outer.Plain → inner.Plain →
    read (outer.opening ++ (inner.opening ++ inner.closing) ++ outer.closing)
      = some ⟨outer, [.element inner []]⟩

theorem readsPlain_read? : ReadsPlain read? :=
  ⟨read?_write, read?_hollow⟩

end Documents

end Xml

end Transcription
