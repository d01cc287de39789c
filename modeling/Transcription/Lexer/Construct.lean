/-
Transcription.Lexer.Construct — the constructs of transcription text: what
begins at a place, told from its first characters.

The longer sign wins: `///` before `//`, `~///` before `~//` before `~`.
`<<` begins nothing, and a colon begins an entity only when a name and a
second colon follow. A construct that has been opened must be closed.

**`within_construct`**: what follows a construct is shorter than the
text, and so is the body of a block in it; reading construct after
construct, and block inside block, therefore ends.
-/
import Transcription.Lexer.Scan
import Transcription.Node.Printer

namespace Transcription.Lexer

/-! ## 1. Parts -/

/-- A label, absent when it is empty. -/
def labelOf (label : Text) : Option Text :=
  if label.isEmpty then none else some label

/-- The kind of block that the text opens, and what follows the brace. -/
def blockOpening? (t : Text) : Option (BlockKind × Text) :=
  [BlockKind.supplied, .norm, .head].findSome? fun kind =>
    (Text.after? kind.opening t).map fun rest => (kind, rest)

/-- The reading of a gap, if one is given, and what follows it. -/
def gapReading : Text → Except LexFault (Option Text × Text)
  | '<' :: t => do
      let (reading, t) ← closedBy '>' t
      return (some reading, t)
  | t => .ok (none, t)

/-- A gap after its opening. -/
def gapRest (t : Text) : Except LexFault (List Node × Text) := do
  let (digits, t) := Text.span Text.isDigit t
  let (reading, t) ← gapReading t
  let t ← expect ']' t
  return ([.gap (Text.toNat? digits) reading], t)

/-- A mark after its opening: the text up to the matching brace, then the
closing sign if there is one. -/
def markRest (mark : Mark) (t : Text) : Except LexFault (List Node × Text) := do
  let (content, t) ← bracketed '}' t
  match mark.closing with
  | [_, sign] =>
      let t ← expect sign t
      return ([.marked mark content], t)
  | _ => return ([.marked mark content], t)

/-- An abbreviation after its opening. -/
def abbreviationRest (t : Text) : Except LexFault (List Node × Text) := do
  let (abbr, t) ← bracketed ']' t
  let t ← expect '{' t
  let (expansion, t) ← bracketed '}' t
  return ([.abbreviation abbr expansion], t)

/-- A block or an abbreviation, which both begin with a point. -/
def dotted (t : Text) : Except LexFault (Option (List Node × Text)) :=
  match blockOpening? t with
  | some (kind, t) => do
      let (body, t) ← braced t
      return some ([.block kind body], t)
  | none =>
      match Text.after? ".abbr[" t with
      | some t => some <$> abbreviationRest t
      | none => .ok none

/-- A line break with what comes before it in the sequence of nodes. -/
def lineBreakRest (before : List Node) (t : Text) : Except LexFault (List Node × Text) := do
  let (label, t) ← breakLabel t
  return (before ++ [.lineBreak (labelOf label)], t)

/-- A page break whose label the given reader reads. -/
def pageBreakRest (label : Text → Except LexFault (Text × Text)) (before : List Node) (t : Text) :
    Except LexFault (List Node × Text) := do
  let (label, t) ← label t
  return (before ++ [.pageBreak label], t)

/-- Text supplied by the editor, after its opening. -/
def suppliedRest (t : Text) : Except LexFault (List Node × Text) := do
  let (content, t) ← closedBy '>' t
  return ([.marked .supplied content], t)

/-! ## 2. Dispatch -/

/-- The nodes of the construct at the start of a text and what follows it;
nothing where a plain character stands. -/
def construct (t : Text) : Except LexFault (Option (List Node × Text)) :=
  match t with
  | '/' :: '/' :: '/' :: t => some <$> pageBreakRest pageLabel [] t
  | '/' :: '/' :: t => some <$> lineBreakRest [] t
  | '.' :: _ => dotted t
  | '[' :: '.' :: '.' :: '.' :: t => some <$> gapRest t
  | '<' :: '<' :: _ => .ok none
  | '<' :: t => some <$> suppliedRest t
  | '-' :: '{' :: t => some <$> markRest .deletion t
  | '+' :: '{' :: t => some <$> markRest .addition t
  | '^' :: '{' :: t => some <$> markRest .note t
  | '?' :: '{' :: t => some <$> markRest .unclear t
  | ':' :: t => .ok ((entityName? t).map fun (name, t) => ([.entity name], t))
  | '~' :: '/' :: '/' :: '/' :: t => some <$> pageBreakRest breakLabel [.continuation] t
  | '~' :: '/' :: '/' :: t => some <$> lineBreakRest [.continuation] t
  | '~' :: t => .ok (some ([.compoundJoin], t))
  | '|' :: t => .ok (some ([.boundary], t))
  | _ => .ok none

/-! ## 3. What is left is shorter -/

/-- Where a step follows another and both succeed, the first one had a
result for the second to go on from. -/
theorem exists_of_bind {ε β γ : Type} {first : Except ε β} {next : β → Except ε γ} {c : γ}
    (h : first >>= next = .ok c) : ∃ b, first = .ok b ∧ next b = .ok c :=
  match first, h with
  | .ok b, h => ⟨b, rfl, h⟩

/-- A changed result comes from a result. -/
theorem exists_of_map {ε β γ : Type} {run : Except ε β} {change : β → γ} {c : γ}
    (h : change <$> run = .ok c) : ∃ b, run = .ok b ∧ change b = c :=
  match run, h with
  | .ok b, h => ⟨b, rfl, Except.ok.inj h⟩

/-- A result that is always present comes from a result. -/
theorem of_map_some {ε β : Type} {run : Except ε β} {b : β}
    (h : some <$> run = .ok (some b)) : run = .ok b := by
  obtain ⟨c, hc, he⟩ := exists_of_map h
  rw [hc, Option.some.inj he]

theorem length_of_after? {opening t rest : Text} (h : Text.after? opening t = some rest) :
    t.length = opening.length + rest.length := by
  induction opening generalizing t with
  | nil => simp only [Text.after?, Option.some.injEq] at h; simp [h]
  | cons a opening ih =>
    cases t with
    | nil => simp [Text.after?] at h
    | cons c t =>
      simp only [Text.after?] at h
      split at h
      · have := ih h
        simp only [List.length_cons]; omega
      · cases h

/-- The nodes `ns` have been read from a text of length `n` that `rest`
ends: `rest` is shorter, and so are the bodies of blocks in `ns`. -/
def Within (n : Nat) (ns : List Node) (rest : Text) : Prop :=
  rest.length < n ∧ ∀ node ∈ ns, node.weight ≤ 2 * n

theorem Within.mono {n m : Nat} {ns : List Node} {rest : Text}
    (h : Within n ns rest) (hnm : n ≤ m) : Within m ns rest :=
  ⟨Nat.lt_of_lt_of_le h.1 hnm,
    fun node hn => Nat.le_trans (h.2 node hn) (Nat.mul_le_mul_left 2 hnm)⟩

theorem within_leaf {n : Nat} {node : Node} {rest : Text} (hw : node.weight = 0)
    (h : rest.length < n) : Within n [node] rest :=
  ⟨h, fun m hm => by rw [List.mem_singleton.1 hm, hw]; exact Nat.zero_le _⟩

theorem length_of_gapReading {t rest : Text} {reading : Option Text}
    (h : gapReading t = .ok (reading, rest)) : rest.length ≤ t.length := by
  unfold gapReading at h
  split at h
  · obtain ⟨⟨r, t1⟩, h1, h⟩ := exists_of_bind h
    have := length_of_closedBy h1
    cases h
    simp only [List.length_cons]; omega
  · cases h; exact Nat.le_refl _

theorem within_gapRest {t rest : Text} {ns : List Node} (h : gapRest t = .ok (ns, rest)) :
    Within t.length ns rest := by
  have hs := length_of_span Text.isDigit t
  obtain ⟨⟨reading, t1⟩, h1, h⟩ := exists_of_bind h
  obtain ⟨t2, h2, h⟩ := exists_of_bind h
  cases h
  have l2 := length_of_expect h2
  have l1 : t1.length ≤ (Text.span Text.isDigit t).2.length := length_of_gapReading h1
  exact within_leaf rfl (by omega)

theorem within_markRest {mark : Mark} {t rest : Text} {ns : List Node}
    (h : markRest mark t = .ok (ns, rest)) : Within t.length ns rest := by
  obtain ⟨⟨content, t1⟩, h1, h⟩ := exists_of_bind h
  have l1 := length_of_bracketed h1
  simp only at h
  split at h
  · obtain ⟨t2, h2, h⟩ := exists_of_bind h
    have l2 := length_of_expect h2
    cases h
    exact within_leaf rfl (by omega)
  · cases h
    exact within_leaf rfl (by omega)

theorem within_abbreviationRest {t rest : Text} {ns : List Node}
    (h : abbreviationRest t = .ok (ns, rest)) : Within t.length ns rest := by
  obtain ⟨⟨abbr, t1⟩, h1, h⟩ := exists_of_bind h
  obtain ⟨t2, h2, h⟩ := exists_of_bind h
  obtain ⟨⟨expansion, t3⟩, h3, h⟩ := exists_of_bind h
  have l1 := length_of_bracketed h1
  have l2 := length_of_expect h2
  have l3 := length_of_bracketed h3
  cases h
  exact within_leaf rfl (by omega)

theorem length_of_blockOpening? {t rest : Text} {kind : BlockKind}
    (h : blockOpening? t = some (kind, rest)) : rest.length < t.length := by
  obtain ⟨k, _, hk⟩ := List.exists_of_findSome?_eq_some h
  obtain ⟨r, hr, he⟩ := Option.map_eq_some_iff.1 hk
  have hl := length_of_after? hr
  cases he
  have : 0 < kind.opening.length := by cases kind <;> decide
  omega

theorem within_dotted {t rest : Text} {ns : List Node}
    (h : dotted t = .ok (some (ns, rest))) : Within t.length ns rest := by
  unfold dotted at h
  split at h
  · next kind t1 hk =>
    have l1 := length_of_blockOpening? hk
    obtain ⟨⟨body, t2⟩, h2, h⟩ := exists_of_bind h
    have l2 := length_of_braced h2
    cases h
    refine ⟨by omega, ?_⟩
    intro node hn
    rw [List.mem_singleton.1 hn]
    simp only [Node.weight]
    omega
  · split at h
    · next t1 ht =>
      have l1 := length_of_after? ht
      obtain ⟨⟨ms, t2⟩, h2, he⟩ := exists_of_map h
      cases he
      exact (within_abbreviationRest h2).mono (by omega)
    · cases h

theorem within_lineBreakRest {t rest : Text} {ns : List Node} {before : List Node}
    (hb : ∀ node ∈ before, node.weight = 0) (h : lineBreakRest before t = .ok (ns, rest)) :
    Within (t.length + 1) ns rest := by
  obtain ⟨⟨label, t1⟩, h1, h⟩ := exists_of_bind h
  have l1 := length_of_breakLabel h1
  cases h
  refine ⟨by omega, ?_⟩
  intro node hn
  rcases List.mem_append.1 hn with hn | hn
  · rw [hb node hn]; exact Nat.zero_le _
  · rw [List.mem_singleton.1 hn]; exact Nat.zero_le _

theorem within_pageBreakRest {label : Text → Except LexFault (Text × Text)} {t rest : Text}
    {ns : List Node} {before : List Node} (hb : ∀ node ∈ before, node.weight = 0)
    (hl : ∀ {l r : Text}, label t = .ok (l, r) → l.length + r.length ≤ t.length)
    (h : pageBreakRest label before t = .ok (ns, rest)) :
    Within (t.length + 1) ns rest := by
  obtain ⟨⟨l, t1⟩, h1, h⟩ := exists_of_bind h
  have l1 := hl h1
  cases h
  refine ⟨by omega, ?_⟩
  intro node hn
  rcases List.mem_append.1 hn with hn | hn
  · rw [hb node hn]; exact Nat.zero_le _
  · rw [List.mem_singleton.1 hn]; exact Nat.zero_le _

theorem within_suppliedRest {t rest : Text} {ns : List Node}
    (h : suppliedRest t = .ok (ns, rest)) : Within t.length ns rest := by
  obtain ⟨⟨content, t1⟩, h1, h⟩ := exists_of_bind h
  have l1 := length_of_closedBy h1
  cases h
  exact within_leaf rfl (by omega)

/-- What follows a construct is shorter than the text it begins, and each
block in it has a shorter body. -/
theorem within_construct {t rest : Text} {ns : List Node}
    (h : construct t = .ok (some (ns, rest))) : Within t.length ns rest := by
  have start : ∀ node ∈ ([] : List Node), node.weight = 0 := by simp
  have joint : ∀ node ∈ [Node.continuation], node.weight = 0 := by simp [Node.weight]
  unfold construct at h
  split at h
  · exact (within_pageBreakRest start length_of_pageLabel (of_map_some h)).mono (by simp)
  · exact (within_lineBreakRest start (of_map_some h)).mono (by simp)
  · exact within_dotted h
  · exact (within_gapRest (of_map_some h)).mono (by simp only [List.length_cons]; omega)
  · cases h
  · exact (within_suppliedRest (of_map_some h)).mono (by simp)
  · exact (within_markRest (of_map_some h)).mono (by simp only [List.length_cons]; omega)
  · exact (within_markRest (of_map_some h)).mono (by simp only [List.length_cons]; omega)
  · exact (within_markRest (of_map_some h)).mono (by simp only [List.length_cons]; omega)
  · exact (within_markRest (of_map_some h)).mono (by simp only [List.length_cons]; omega)
  · obtain ⟨⟨name, r⟩, hn, he⟩ := Option.map_eq_some_iff.1 (Except.ok.inj h)
    have := length_of_entityName? hn
    cases he
    exact within_leaf rfl (by simp only [List.length_cons]; omega)
  · exact (within_pageBreakRest joint length_of_breakLabel (of_map_some h)).mono (by simp)
  · exact (within_lineBreakRest joint (of_map_some h)).mono (by simp)
  · cases h; exact within_leaf rfl (by simp)
  · cases h; exact within_leaf rfl (by simp)
  · cases h

end Transcription.Lexer
