/-
Transcription.Proofs.Junctions — what a lexed sequence of nodes is like where
one node meets the next.

A character is plain as far as it and the next one can tell (`isPlain`): it
begins no construct. A run of text `Stands` before a character when each of its
characters is plain before the one after it. Only text depends on what follows:
a node that its own signs end can stand before anything. `Node.Joined` states
this for a whole sequence, with the node that comes after it left open, so that
the condition survives when a sequence is cut or a word is closed.

**`lexed_of_lex`**: the nodes of a text are admissible and joined.
**`lex_stands`**: a run of text that stands before the rest reads back as one
node.
-/
import Transcription.Proofs.WrittenNode
import Transcription.Lexer.Basic

namespace Transcription

namespace Lexer

/-! ## 1. Plain characters -/

/-- Whether a character before the next one begins no construct, as far as the
two can tell. A point, a bracket and a colon take more than that to judge. -/
def isPlain (c : Char) (next : Option Char) : Bool :=
  if c = '/' then next != some '/'
  else if c = '<' then next == some '<'
  else if c = '-' ∨ c = '+' ∨ c = '^' ∨ c = '?' then next != some '{'
  else c != '~' && c != '|'

section Plain

variable {c : Char} {t : Text} {next other : Option Char}

theorem map_ne_none {x : Except LexFault (List Node × Text)} : some <$> x ≠ .ok none := by
  cases x <;> nofun

/-- Where a character begins no construct it is plain. -/
theorem isPlain_of_construct (h : construct (c :: t) = .ok none) : isPlain c t.head? = true := by
  have not_before {d : Char} (hd : ∀ u, t ≠ d :: u) : (t.head? != some d) = true := by
    rw [bne_iff_ne]
    intro he
    obtain ⟨u, rfl⟩ := List.head?_eq_some_iff.1 he
    exact hd u rfl
  generalize hs : c :: t = s at h
  unfold construct at h
  -- what is dispatched to a construct gives one, except a point, two angles, a colon and the rest
  split at h
  · exact absurd h map_ne_none
  · exact absurd h map_ne_none
  · cases hs; rfl
  · exact absurd h map_ne_none
  · cases hs; rfl
  · exact absurd h map_ne_none
  · exact absurd h map_ne_none
  · exact absurd h map_ne_none
  · exact absurd h map_ne_none
  · exact absurd h map_ne_none
  · cases hs; rfl
  · exact absurd h map_ne_none
  · exact absurd h map_ne_none
  · cases h
  · cases h
  · next page line dot gap angles angle deletion addition note unclear colon pj lj join bar =>
    subst hs
    unfold isPlain
    split
    · next hc =>
      subst hc
      exact not_before fun u hu => line u (by rw [hu])
    · split
      · next hc => exact absurd (congrArg (· :: t) hc) (angle t)
      · split
        · next hc =>
          refine not_before fun u hu => ?_
          rw [hu] at deletion addition note unclear
          rcases hc with rfl | rfl | rfl | rfl
          · exact deletion u rfl
          · exact addition u rfl
          · exact note u rfl
          · exact unclear u rfl
        · simp only [Bool.and_eq_true, bne_iff_ne]
          exact ⟨fun hc => join t (by rw [hc]), fun hc => bar t (by rw [hc])⟩

/-- A plain character begins no construct, unless it is one of the three signs
that take more to judge. -/
theorem construct_of_isPlain (hp : isPlain c t.head? = true) (hc : c ∉ ['.', '[', ':']) :
    construct (c :: t) = .ok none := by
  generalize hs : c :: t = s
  unfold construct
  split <;> cases hs
  case h_6 single =>
    cases t with
    | nil => cases hp
    | cons d t =>
      have hd : d = '<' := by simpa [isPlain] using hp
      exact absurd (congrArg (· :: t) hd) (single t)
  all_goals first | rfl | exact absurd (by decide) hc | cases hp

/-- The characters that a construct may begin with. -/
def openingSigns : List Char :=
  ['/', '<', '-', '+', '^', '?', '~', '|', '.', '[', ':']

/-- Any other character begins no construct, whatever follows. -/
theorem construct_of_noSign (hc : c ∉ openingSigns) (t : Text) :
    construct (c :: t) = .ok none := by
  simp only [openingSigns, List.mem_cons, List.not_mem_nil, or_false, not_or] at hc
  exact construct_of_isPlain (by simp [isPlain, hc]) (by simp [hc])

/-- What is plain before anything but an angle bracket is plain before
everything but a stroke and a brace. -/
theorem isPlain_of_ne (h : isPlain c next = true) (hn : next ≠ some '<')
    (ho : other ≠ some '/' ∧ other ≠ some '{') : isPlain c other = true := by
  unfold isPlain at h ⊢
  split
  · exact bne_iff_ne.2 ho.1
  · next h1 =>
    rw [if_neg h1] at h
    split
    · next h2 =>
      rw [if_pos h2] at h
      exact absurd (beq_iff_eq.1 h) hn
    · next h2 =>
      rw [if_neg h2] at h
      split
      · exact bne_iff_ne.2 ho.2
      · next h3 => rwa [if_neg h3] at h

end Plain

/-! ## 2. Runs of text -/

/-- Each character of a run of text is plain before what follows it, up to the
character after the run. -/
def Stands : Text → Option Char → Prop
  | [], _ => True
  | c :: t, next => isPlain c (t.head?.or next) = true ∧ Stands t next

section Stands

variable {run t content rest : Text} {next other : Option Char} {ns : List Node}

theorem stands_append :
    Stands (run ++ t) next ↔ Stands run (t.head?.or next) ∧ Stands t next := by
  induction run with
  | nil => simp [Stands]
  | cons c run ih => simp only [List.cons_append, Stands, ih, List.head?_append, Option.or_assoc,
      and_assoc]

theorem Stands.mono (h : Stands t next)
    (ho : ∀ c, isPlain c next = true → isPlain c other = true) : Stands t other := by
  induction t with
  | nil => trivial
  | cons c t ih =>
    obtain ⟨hc, ht⟩ := h
    refine ⟨?_, ih ht⟩
    cases t with
    | nil => exact ho c hc
    | cons d t => exact hc

theorem consChar_of_noText {c : Char} (hns : ∀ n ∈ ns.head?, n.isText = false) :
    consChar c ns = .text [c] :: ns := by
  cases ns with
  | nil => rfl
  | cons n ns =>
    cases n with
    | text content => exact absurd (hns _ rfl) nofun
    | _ => rfl

/-- A run of text that stands before the rest reads back as one node. -/
theorem lex_stands (hs : Stands content rest.head?) (hc : ∀ c ∈ content, c ∉ ['.', '[', ':'])
    (hne : content ≠ []) (hl : lex rest = .ok ns) (hns : ∀ n ∈ ns.head?, n.isText = false) :
    lex (content ++ rest) = .ok (.text content :: ns) := by
  induction content with
  | nil => exact absurd rfl hne
  | cons c content ih =>
    obtain ⟨hp, hs⟩ := hs
    have plain : construct (c :: (content ++ rest)) = .ok none :=
      construct_of_isPlain (by rw [List.head?_append]; exact hp) (hc c List.mem_cons_self)
    rw [List.cons_append, lex_char plain]
    cases content with
    | nil =>
      rw [List.nil_append, hl]
      exact congrArg Except.ok (consChar_of_noText hns)
    | cons d content =>
      rw [ih hs (fun e he => hc e (List.mem_cons_of_mem _ he)) nofun]
      rfl

end Stands

end Lexer

namespace Node

open Lexer

/-! ## 3. Junctions of nodes -/

/-- The first character that a node is written with inside a word. -/
def firstChar (n : Node) : Option Char :=
  (n.writeIn true).head?

/-- What a node asks of the node after it: text that it stands before that node
and does not go on there, the sign that a word goes on that a break comes. -/
def Joint (n : Node) (next : Option Node) : Prop :=
  match n with
  | .text content => Stands content (next.bind firstChar) ∧ ∀ m ∈ next, m.isText = false
  | .continuation => ∃ m ∈ next, m.isBreak = true
  | _ => True

/-- Each node of a sequence meets what the one before it asks, up to the node
after the sequence. -/
def Joined : List Node → Option Node → Prop
  | [], _ => True
  | n :: ns, last => n.Joint (ns.head?.or last) ∧ Joined ns last

section Joined

variable {n : Node} {ns ms : List Node} {next last last' : Option Node}

theorem joint_of_not (ht : n.isText = false) (hc : n ≠ .continuation) : n.Joint next := by
  cases n with
  | text content => cases ht
  | continuation => exact absurd rfl hc
  | _ => trivial

theorem joined_append : Joined (ns ++ ms) last ↔ Joined ns (ms.head?.or last) ∧ Joined ms last := by
  induction ns with
  | nil => simp [Joined]
  | cons n ns ih =>
    rw [List.cons_append, Joined, Joined, ih, List.head?_append, Option.or_assoc, and_assoc]

/-- Only the last node of a sequence depends on the one after it. -/
theorem Joined.mono (h : Joined ns last) (hl : ∀ n ∈ ns, n.Joint last → n.Joint last') :
    Joined ns last' := by
  induction ns with
  | nil => trivial
  | cons n ns ih =>
    obtain ⟨hn, hns⟩ := h
    refine ⟨?_, ih hns fun m hm => hl m (List.mem_cons_of_mem _ hm)⟩
    cases ns with
    | nil => exact hl n List.mem_cons_self hn
    | cons m ns => exact hn

end Joined

/-! ## 4. The nodes of a text -/

/-- What reading a text leaves: admissible nodes that are joined, before which a
character is as plain as it is before the text. -/
structure Lexed (t : Text) (ns : List Node) : Prop where
  admissible : ∀ n ∈ ns, n.Admissible
  joined : Joined ns none
  plain : ∀ c, isPlain c t.head? = true → isPlain c (ns.head?.bind firstChar) = true

section Lexed

variable {c : Char} {t rest : Text} {n : Node} {ns ks : List Node}

theorem firstChar_of_not_isBreak (hb : n.isBreak = false) (ha : n.Admissible) :
    n.firstChar = n.write.head? := by
  cases n with
  | lineBreak label => cases hb
  | pageBreak label => cases hb
  | group kind children => exact absurd ha id
  | _ => rfl

theorem firstChar_of_isBreak (hb : n.isBreak = true) : n.firstChar = some '~' := by
  cases n with
  | lineBreak label => exact congrArg List.head? (write_inWord .line label)
  | pageBreak label => exact congrArg List.head? (write_inWord .page (some label))
  | _ => cases hb

theorem head?_write_of_isBreak (hb : n.isBreak = true) : n.write.head? = some '/' := by
  cases n with
  | lineBreak label => exact head?_write_break .line label
  | pageBreak label => exact head?_write_break .page (some label)
  | _ => cases hb

/-- A break inside a word begins with another sign than outside, which makes no
character before it less plain. -/
theorem isPlain_firstChar (ha : n.Admissible) (h : isPlain c n.write.head? = true) :
    isPlain c n.firstChar = true := by
  cases hb : n.isBreak with
  | false => rwa [firstChar_of_not_isBreak hb ha]
  | true =>
    rw [head?_write_of_isBreak hb] at h
    rw [firstChar_of_isBreak hb]
    exact isPlain_of_ne h (by decide) (by decide)

theorem lexed_nil : Lexed [] [] :=
  ⟨nofun, trivial, fun _ h => h⟩

/-- A plain character joins the text that follows, or begins one. -/
theorem lexed_consChar (h : Lexed t ns) (hc : isPlain c t.head? = true) :
    Lexed (c :: t) (consChar c ns) := by
  have next := h.plain c hc
  obtain ⟨admissible, joined, -⟩ := h
  -- the character joins the text that follows; that text is not empty, so its first character
  -- is the one the new character stands before
  by_cases ht : ∃ content ms, ns = .text content :: ms
  · obtain ⟨content, ms, rfl⟩ := ht
    obtain ⟨some, others⟩ := List.forall_mem_cons.1 admissible
    refine ⟨?_, ⟨⟨⟨?_, joined.1.1⟩, joined.1.2⟩, joined.2⟩, fun d h => h⟩
    · exact List.forall_mem_cons.2 ⟨List.cons_ne_nil c content, others⟩
    · cases content with
      | nil => exact absurd rfl some
      | cons d content => exact next
  · have noText : ∀ n ∈ ns.head?, n.isText = false := by
      intro n hn
      obtain ⟨ms, rfl⟩ := List.head?_eq_some_iff.1 hn
      cases n with
      | text content => exact absurd ⟨content, ms, rfl⟩ ht
      | _ => rfl
    rw [consChar_of_noText noText]
    refine ⟨?_, ⟨⟨⟨?_, trivial⟩, ?_⟩, joined⟩, fun d h => h⟩
    · exact List.forall_mem_cons.2 ⟨List.cons_ne_nil c [], admissible⟩
    · simpa using next
    · simpa using noText

/-- A construct stands before anything. -/
theorem lexed_construct (h : Lexed rest ns) (hk : ReadAs t.head? ks) : Lexed t (ks ++ ns) := by
  obtain ⟨n, ha, ht, ⟨rfl, hc, hf⟩ | ⟨rfl, hb, hf⟩⟩ := hk
  · refine ⟨?_, ⟨joint_of_not ht hc, h.joined⟩, fun c hp => ?_⟩
    · exact List.forall_mem_cons.2 ⟨ha, h.admissible⟩
    · exact isPlain_firstChar ha (hf ▸ hp)
  · have hc : n ≠ .continuation := by
      rintro rfl
      cases hb
    refine ⟨?_, ⟨⟨n, rfl, hb⟩, joint_of_not ht hc, h.joined⟩, fun c hp => ?_⟩
    · exact List.forall_mem_cons.2 ⟨trivial, List.forall_mem_cons.2 ⟨ha, h.admissible⟩⟩
    · rwa [hf] at hp

end Lexed

end Node

namespace Lexer

/-- The nodes of a text are admissible and joined. -/
theorem lexed_of_lex {t : Text} {ns : List Node} (h : lex t = .ok ns) : Node.Lexed t ns := by
  induction hn : t.length using Nat.strongRecOn generalizing t ns with
  | ind n ih =>
    cases t with
    | nil =>
      rw [lex_nil] at h
      cases h
      exact Node.lexed_nil
    | cons c t =>
      cases hc : construct (c :: t) with
      | error fault => rw [lex_fault hc] at h; cases h
      | ok found =>
        cases found with
        | none =>
          rw [lex_char hc] at h
          obtain ⟨ms, hm, rfl⟩ := exists_of_map h
          have shorter : t.length < n := by rw [← hn]; exact Nat.lt_succ_self _
          exact Node.lexed_consChar (ih t.length shorter hm rfl) (isPlain_of_construct hc)
        | some parts =>
          obtain ⟨ks, rest⟩ := parts
          rw [lex_construct hc] at h
          obtain ⟨ms, hm, rfl⟩ := exists_of_map h
          have shorter : rest.length < n := by rw [← hn]; exact (within_construct hc).1
          exact Node.lexed_construct (ih rest.length shorter hm rfl) (readAs_of_construct hc)

end Lexer

end Transcription
