/-
Transcription.Proofs.Words — what the grouping of a lexed sequence brings out.

While a word is being collected its nodes are joined, with the next node of the
sequence as the one after them (`Pending.Collects`). A blank, a punctuation
mark, a block, a boundary and the end close the word; none of them begins with
the angle bracket that the text before it could wait for, so a closed word is
joined with nothing after it (`Node.Grouped`).

**`groupStep_grouped`**: one node preserves this, whatever it is.
**`grouped_of_lex`**: so every group of a text's nodes is closed in this sense.
-/
import Transcription.Proofs.Junctions
import Transcription.Node.Grouping

namespace Transcription.Node

open Lexer

/-! ## 1. Nodes in a word -/

/-- Text that neither a blank nor a punctuation mark cuts. -/
def Solid (content : Text) : Prop :=
  ∀ c ∈ content, isBlank c = false ∧ c ∉ punctuationMarks

/-- A node that can stand in a word. -/
structure InWord (n : Node) : Prop where
  admissible : n.Admissible
  inside : n.isInline = true ∨ n.isBreak = true
  solid : ∀ content, n = .text content → Solid content

/-- A group as it is brought out: a word whose nodes are joined, a punctuation
mark, a break or a block. -/
def Grouped : Node → Prop
  | .group .word children => children ≠ [] ∧ (∀ n ∈ children, InWord n) ∧ Joined children none
  | .group .punctuation children => ∃ c ∈ punctuationMarks, children = [.text [c]]
  | .block kind body => (Node.block kind body).Admissible
  | n => n.isBreak = true ∧ n.Admissible

/-- The nodes collected so far can stand in a word and are joined up to the next
one. -/
structure Pending.Collects (word : List Node) (next : Option Node) : Prop where
  inWord : ∀ n ∈ word, InWord n
  joined : Joined word next

open Pending

section Joints

variable {n m : Node} {word : List Node} {last next : Option Node} {content t : Text}

theorem inWord_text (hs : Solid content) (hne : content ≠ []) : InWord (.text content) :=
  ⟨hne, .inl rfl, fun _ he => by cases he; exact hs⟩

theorem inWord_of_isBreak (ha : n.Admissible) (hb : n.isBreak = true) : InWord n := by
  refine ⟨ha, .inr hb, ?_⟩
  rintro content rfl
  cases hb

/-- A node before the end asks for nothing, unless it waits for an angle
bracket. -/
theorem joint_none (hn : InWord n) (hf : last.bind firstChar ≠ some '<') (h : n.Joint last) :
    n.Joint none := by
  cases n with
  | text content => exact ⟨h.1.mono fun c hc => isPlain_of_ne hc hf (by decide), nofun⟩
  | continuation => rcases hn.inside with hi | hi <;> cases hi
  | _ => trivial

/-- The sign that a word goes on and the break after it begin alike. -/
theorem joint_break (hn : InWord n) (hb : m.isBreak = true) (h : n.Joint (some .continuation)) :
    n.Joint (some m) := by
  cases n with
  | text content =>
    refine ⟨?_, ?_⟩
    · rw [Option.bind_some, firstChar_of_isBreak hb]
      exact h.1
    · rintro k hk
      cases hk
      cases m with
      | text content => cases hb
      | _ => rfl
  | continuation => rcases hn.inside with hi | hi <;> cases hi
  | _ => trivial

/-- No text stands before text. -/
theorem joint_text (h : n.Joint (some (.text content))) (t : Text) : n.Joint (some (.text t)) := by
  cases n with
  | text content => exact absurd (h.2 _ rfl) nofun
  | continuation =>
    obtain ⟨m, hm, hb⟩ := h
    cases hm
    cases hb
  | _ => trivial

theorem solid_nil : Solid [] :=
  nofun

theorem Pending.Collects.nil : Collects [] next :=
  ⟨nofun, trivial⟩

theorem Pending.Collects.snoc (h : Collects word (some n)) (hn : InWord n) (hj : n.Joint next) :
    Collects (word ++ [n]) next := by
  refine ⟨fun m hm => ?_, joined_append.2 ⟨h.joined, hj, trivial⟩⟩
  rcases List.mem_append.1 hm with hm | hm
  · exact h.inWord m hm
  · rw [List.mem_singleton.1 hm]
    exact hn

/-- A word is closed before what does not begin with an angle bracket. -/
theorem grouped_closeWord (h : Collects word last) (hf : last.bind firstChar ≠ some '<') :
    ∀ g ∈ closeWord word, Grouped g := by
  intro g hg
  unfold closeWord at hg
  split at hg
  · cases hg
  · next hne =>
    rw [List.mem_singleton.1 hg]
    exact ⟨by simpa using hne, h.inWord, h.joined.mono fun n hn => joint_none (h.inWord n hn) hf⟩

/-- A word is closed at the end. -/
theorem grouped_closeWord_end (h : Collects word none) : ∀ g ∈ closeWord word, Grouped g :=
  grouped_closeWord h nofun

end Joints

/-! ## 2. Cutting text -/

section Cutting

variable {word : List Node} {next : Option Node} {run t : Text} {c : Char} {after : Option Char}

/-- A run of text at the end of a word; `t` is the text that it was cut from. -/
theorem collects_textNode (h : Collects word (some (.text t))) (hr : Solid run)
    (hs : Stands run (next.bind firstChar)) (hn : ∀ m ∈ next, m.isText = false)
    (ho : run = [] → Collects word next) : Collects (word ++ textNode run) next := by
  cases run with
  | nil => simpa [textNode] using ho rfl
  | cons c run =>
    have here : Collects word (some (.text (c :: run))) :=
      ⟨h.inWord, h.joined.mono fun n _ hj => joint_text hj _⟩
    exact here.snoc (inWord_text hr nofun) ⟨hs, hn⟩

/-- A word ends before a character that is no angle bracket. -/
theorem collects_cut (h : Collects word (some (.text (run ++ c :: t)))) (hr : Solid run)
    (hs : Stands (run ++ c :: t) after) (hc : c ≠ '<') : Collects (word ++ textNode run) none := by
  have other : some c ≠ some '<' := fun he => hc (Option.some.inj he)
  have stands : Stands run none :=
    (stands_append.1 hs).1.mono fun d hd => isPlain_of_ne hd other (by decide)
  refine collects_textNode h hr stands nofun ?_
  rintro rfl
  have first : (some (Node.text (c :: t))).bind firstChar ≠ some '<' := other
  exact ⟨h.inWord, h.joined.mono fun n hn hj => joint_none (h.inWord n hn) first hj⟩

theorem solid_snoc (hr : Solid run) (hb : isBlank c = false) (hm : c ∉ punctuationMarks) :
    Solid (run ++ [c]) := by
  intro d hd
  rcases List.mem_append.1 hd with hd | hd
  · exact hr d hd
  · rw [List.mem_singleton.1 hd]
    exact ⟨hb, hm⟩

/-- Cutting text closes words and punctuation marks and leaves a word that goes on
up to the node after the text. -/
theorem cutText_grouped (hn : ∀ m ∈ next, m.isText = false) :
    ∀ {word : List Node} {run : Text} {inWord : Bool}, Collects word (some (.text (run ++ t))) →
      Solid run → Stands (run ++ t) (next.bind firstChar) → (word = [] ∨ run ++ t ≠ []) →
      (∀ g ∈ (cutText punctuationMarks t word run inWord).1, Grouped g)
        ∧ Collects (cutText punctuationMarks t word run inWord).2.1 next := by
  induction t with
  | nil =>
    intro word run inWord h hr hs ho
    rw [List.append_nil] at h hs ho
    refine ⟨fun g hg => absurd hg List.not_mem_nil, collects_textNode h hr hs hn fun he => ?_⟩
    rw [ho.resolve_right (fun hne => hne he)]
    exact .nil
  | cons c t ih =>
    intro word run inWord h hr hs ho
    have after : Stands t (next.bind firstChar) := (stands_append.1 hs).2.2
    have fresh := fun inWord => @ih [] [] inWord .nil solid_nil after (.inl rfl)
    unfold cutText
    split
    · next hb =>
      have closed := grouped_closeWord_end (collects_cut h hr hs (ne_of_isBlank hb (by decide)))
      exact ⟨List.forall_mem_append.2 ⟨closed, (fresh false).1⟩, (fresh false).2⟩
    · next hb =>
      split
      · next hm =>
        have mark : c ∈ punctuationMarks := by simpa using hm
        have notAngle : c ≠ '<' := by
          rintro rfl
          exact absurd mark (by decide)
        have closed := grouped_closeWord_end (collects_cut h hr hs notAngle)
        refine ⟨List.forall_mem_append.2 ⟨closed, ?_⟩, (fresh false).2⟩
        exact List.forall_mem_cons.2 ⟨⟨c, mark, rfl⟩, (fresh false).1⟩
      · next hm =>
        have solid : Solid (run ++ [c]) := solid_snoc hr (by simpa using hb) (by simpa using hm)
        have shift : run ++ c :: t = run ++ [c] ++ t := by simp
        rw [shift] at h hs
        exact ih h solid hs (.inr (by simp))

end Cutting

/-! ## 3. One node after the other -/

section Steps

variable {p : Pending} {n : Node} {ns : List Node} {next : Option Node}

theorem grouped_of_isBreak (ha : n.Admissible) (hb : n.isBreak = true) : Grouped n := by
  cases n with
  | lineBreak label => exact ⟨hb, ha⟩
  | pageBreak label => exact ⟨hb, ha⟩
  | _ => cases hb

/-- One node closes groups and leaves a word that goes on up to the next one. -/
theorem groupStep_grouped (hp : Collects p.word (some n)) (ha : n.Admissible) (hj : n.Joint next) :
    (∀ g ∈ (groupStep punctuationMarks p n).1, Grouped g)
      ∧ Collects (groupStep punctuationMarks p n).2.word next := by
  have closes (hf : n.firstChar ≠ some '<') (hg : Grouped n) :
      ∀ g ∈ closeWord p.word ++ [n], Grouped g :=
    List.forall_mem_append.2 ⟨grouped_closeWord hp hf, by simpa using hg⟩
  -- a break is collected or brought out, whatever its kind
  cases hb : n.isBreak with
  | true =>
    have goesOn := hp.snoc (inWord_of_isBreak ha hb) hj
    rw [groupStep_break hb]
    split
    · exact ⟨nofun, goesOn⟩
    · split
      · exact ⟨nofun, goesOn⟩
      · refine ⟨closes ?_ (grouped_of_isBreak ha hb), .nil⟩
        rw [firstChar_of_isBreak hb]
        decide
  | false =>
    cases n with
    | text content => exact cutText_grouped hj.2 hp solid_nil hj.1 (.inr ha)
    | continuation =>
      obtain ⟨m, rfl, hm⟩ := hj
      exact ⟨nofun, hp.inWord, hp.joined.mono fun k hk => joint_break (hp.inWord k hk) hm⟩
    | boundary => exact ⟨grouped_closeWord hp (by decide), .nil⟩
    | block kind body =>
      have first : (Node.block kind body).firstChar = some '.' := rfl
      exact ⟨closes (by rw [first]; decide) ha, .nil⟩
    | group kind children => exact absurd ha id
    | lineBreak label | pageBreak label => cases hb
    | abbreviation _ _ | gap _ _ | marked _ _ | entity _ | compoundJoin =>
      exact ⟨nofun, hp.snoc ⟨ha, .inl rfl, nofun⟩ hj⟩

theorem groupFrom_grouped (hp : Collects p.word ns.head?) (ha : ∀ n ∈ ns, n.Admissible)
    (hj : Joined ns none) : ∀ g ∈ groupFrom punctuationMarks p ns, Grouped g := by
  induction ns generalizing p with
  | nil => exact grouped_closeWord_end hp
  | cons n ns ih =>
    obtain ⟨an, ans⟩ := List.forall_mem_cons.1 ha
    obtain ⟨jn, jns⟩ := hj
    rw [Option.or_none] at jn
    obtain ⟨out, after⟩ := groupStep_grouped hp an jn
    exact List.forall_mem_append.2 ⟨out, ih after ans jns⟩

/-- Every group of a text is closed: joined by itself, whatever stood around it. -/
theorem grouped_of_lex {t : Text} (h : lex t = .ok ns) : ∀ g ∈ grouped ns, Grouped g :=
  groupFrom_grouped .nil (lexed_of_lex h).admissible (lexed_of_lex h).joined

end Steps

end Transcription.Node
