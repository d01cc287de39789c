/-
Transcription.Proofs.KeptTokens — the changes that `Patch.diff` finds keep as many
tokens as any changes can.

What an edit script keeps is a common subsequence of the two sequences
(`Script.exists_kept`), so no script keeps more than a bound on the length of common
subsequences (`Bounds`). The entries of the table are such bounds, by the recurrence
that they are computed with (`bounds_commonLength`), and the walk along the table keeps
exactly as many tokens as its first entry says (`kept_walk`).

Trimming loses nothing: a member at the beginning of both sequences adds at most one to
the length of any common subsequence (`Bounds.cons_same`), also where the subsequence
pairs it otherwise. Read from the end, the same holds of the common end.
-/
import Mathlib.Data.List.Infix
import Transcription.Proofs.EditScript

namespace Transcription.Patch

variable {a b : List Text} {x y : Text} {n m : Nat}

/-! ## 1. Common subsequences -/

/-- No common subsequence of two sequences is longer than `n`. -/
def Bounds (a b : List Text) (n : Nat) : Prop :=
  ∀ common : List Text, common.Sublist a → common.Sublist b → common.length ≤ n

theorem bounds_nil_left (b : List Text) : Bounds [] b 0 := by
  intro common ha _
  rw [List.sublist_nil.1 ha]
  exact Nat.le_refl 0

theorem bounds_nil_right (a : List Text) : Bounds a [] 0 := by
  intro common _ hb
  rw [List.sublist_nil.1 hb]
  exact Nat.le_refl 0

/-- A member that both sequences begin with adds at most one: whatever else it is
paired with, without its first member a common subsequence is one of the rests. -/
theorem Bounds.cons_same (h : Bounds a b n) : Bounds (x :: a) (x :: b) (n + 1) := by
  intro common ha hb
  have rest : common.tail.length ≤ n := h common.tail ha.tail hb.tail
  rw [List.length_tail] at rest
  omega

/-- Of two members that differ, one is in no pair. -/
theorem Bounds.cons_other (other : x ≠ y) (ha : Bounds a (y :: b) n)
    (hb : Bounds (x :: a) b m) : Bounds (x :: a) (y :: b) (max n m) := by
  intro common hx hy
  rcases List.sublist_cons_iff.1 hx with hx' | ⟨rest, rfl, _⟩
  · exact (ha common hx' hy).trans (Nat.le_max_left n m)
  · rcases List.sublist_cons_iff.1 hy with hy' | ⟨_, same, _⟩
    · exact (hb _ hx hy').trans (Nat.le_max_right n m)
    · exact absurd (List.cons.inj same).1 other

theorem Bounds.reverse (h : Bounds a b n) : Bounds a.reverse b.reverse n := by
  intro common ha hb
  have turned : common.reverse.length ≤ n :=
    h common.reverse (List.reverse_sublist.1 (by simpa using ha))
      (List.reverse_sublist.1 (by simpa using hb))
  rwa [List.length_reverse] at turned

/-- A common beginning adds at most its length. -/
theorem Bounds.append_left (h : Bounds a b n) (first : List Text) :
    Bounds (first ++ a) (first ++ b) (first.length + n) := by
  induction first with
  | nil => rwa [List.length_nil, Nat.zero_add]
  | cons x first ih =>
    rw [List.length_cons, Nat.add_right_comm]
    exact ih.cons_same

/-- A common end adds at most its length. -/
theorem Bounds.append_right (h : Bounds a b n) (last : List Text) :
    Bounds (a ++ last) (b ++ last) (last.length + n) := by
  have turned := (h.reverse.append_left last.reverse).reverse
  rwa [← List.reverse_append, ← List.reverse_append, List.reverse_reverse, List.reverse_reverse,
    List.length_reverse] at turned

/-! ## 2. The table -/

/-- The length that the table holds for two sequences. -/
def commonLength : List Text → List Text → Nat
  | x :: a, y :: b =>
      if x = y then commonLength a b + 1
      else max (commonLength a (y :: b)) (commonLength (x :: a) b)
  | _, _ => 0
termination_by a b => a.length + b.length

theorem commonLength_nil_left (b : List Text) : commonLength [] b = 0 := by
  rw [commonLength.eq_def]

theorem commonLength_nil_right (a : List Text) : commonLength a [] = 0 := by
  rw [commonLength.eq_def]
  cases a <;> rfl

theorem bounds_commonLength (a b : List Text) : Bounds a b (commonLength a b) := by
  fun_induction commonLength a b with
  | case1 x a b ih => exact ih.cons_same
  | case2 x a y b other iha ihb => exact iha.cons_other other ihb
  | case3 a b h =>
    cases a with
    | nil => exact bounds_nil_left b
    | cons x a =>
      cases b with
      | nil => exact bounds_nil_right _
      | cons y b => exact absurd rfl (h x a y b rfl)

/-- The lengths for `a` and every end of `b`. -/
def row (a b : List Text) : List Nat :=
  b.tails.map (commonLength a)

theorem headD_row (a b : List Text) : (row a b).headD 0 = commonLength a b := by
  cases b <;> rfl

theorem tail_row (a b : List Text) (y : Text) : (row a (y :: b)).tail = row a b := by
  rw [row, List.tails_cons, List.map_cons, List.tail_cons, row]

theorem nextRow_row (x : Text) (a b : List Text) : nextRow x b (row a b) = row (x :: a) b := by
  induction b with
  | nil => simp [nextRow, row, commonLength_nil_right]
  | cons y b ih =>
    have first : row (x :: a) (y :: b) = commonLength (x :: a) (y :: b) :: row (x :: a) b := by
      rw [row, List.tails_cons, List.map_cons, row]
    rw [nextRow, tail_row, ih, headD_row, headD_row, headD_row, first, commonLength]

theorem table_eq (a : List Token) (b : List Text) :
    table a b = (a.map Token.content).tails.map fun rest => row rest b := by
  induction a with
  | nil =>
    have zeros : row [] b = List.replicate (b.length + 1) 0 :=
      List.eq_replicate_iff.2 ⟨by simp [row], by simp [row, commonLength_nil_left]⟩
    rw [table, ← zeros]
    rfl
  | cons x a ih =>
    have first : ((a.map Token.content).tails.map fun rest => row rest b).headD []
        = row (a.map Token.content) b := by
      cases a <;> rfl
    rw [table, ih, first, nextRow_row, List.map_cons, List.tails_cons, List.map_cons]

theorem headD_table (a : List Token) (b : List Text) :
    (table a b).headD [] = row (a.map Token.content) b := by
  rw [table_eq]
  cases a <;> rfl

/-- The table for the ends of `b` after its first member. -/
theorem map_tail_table (a : List Token) (b : List Text) (y : Text) :
    (table a (y :: b)).map List.tail = table a b := by
  rw [table_eq, table_eq, List.map_map]
  exact List.map_congr_left fun rest _ => tail_row rest b y

/-! ## 3. What is kept -/

/-- Whether an operation keeps its token. -/
def isKeep : Patch → Bool
  | .keep _ => true
  | _ => false

/-- How many tokens operations keep. -/
def kept (ops : List Patch) : Nat :=
  ops.countP isKeep

theorem kept_cons_of_keep {op : Patch} (h : isKeep op = true) (ops : List Patch) :
    kept (op :: ops) = kept ops + 1 :=
  List.countP_cons_of_pos h

theorem kept_cons_of_not {op : Patch} (h : isKeep op = false) (ops : List Patch) :
    kept (op :: ops) = kept ops :=
  List.countP_cons_of_neg (by rw [h]; exact Bool.false_ne_true)

theorem kept_append (ops ops' : List Patch) : kept (ops ++ ops') = kept ops + kept ops' :=
  List.countP_append

theorem kept_keeps (ts : List Token) : kept (keeps ts) = ts.length := by
  induction ts with
  | nil => rfl
  | cons t ts ih =>
    rw [keeps, List.map_cons, kept_cons_of_keep rfl, List.length_cons, ← ih, keeps]

/-- What a script keeps is in both sequences, in order. -/
theorem Script.exists_kept {a : List Token} {ops : List Patch} {b : List Text}
    (h : Script a ops b) : ∃ common : List Text, common.Sublist (a.map Token.content)
      ∧ common.Sublist b ∧ common.length = kept ops := by
  induction h with
  | nil => exact ⟨[], .slnil, .slnil, rfl⟩
  | keep t _ ih =>
    obtain ⟨common, ha, hb, hl⟩ := ih
    refine ⟨t.content :: common, ha.cons_cons _, hb.cons_cons _, ?_⟩
    rw [List.length_cons, hl, kept_cons_of_keep rfl]
  | modify t dsl _ ih =>
    obtain ⟨common, ha, hb, hl⟩ := ih
    exact ⟨common, ha.cons _, hb.cons _, hl⟩
  | insert dsl _ ih =>
    obtain ⟨common, ha, hb, hl⟩ := ih
    exact ⟨common, ha, hb.cons _, hl⟩
  | delete t _ ih =>
    obtain ⟨common, ha, hb, hl⟩ := ih
    exact ⟨common, ha.cons _, hb, hl⟩

/-- Operations that address all tokens in order and leave the contents are a script. -/
theorem script_of_replay {a : List Token} {ops : List Patch} {b : List Text}
    (addressed : targets ops = a.map Token.id) (left : replay a ops = b) : Script a ops b := by
  subst left
  fun_induction replay a ops with
  | case1 a dsl ops ih => exact .insert dsl (ih addressed)
  | case2 t a id ops ih =>
    obtain ⟨same, rest⟩ := List.cons.inj addressed
    exact same ▸ .keep t (ih rest)
  | case3 t a id dsl ops ih =>
    obtain ⟨same, rest⟩ := List.cons.inj addressed
    exact same ▸ .modify t dsl (ih rest)
  | case4 t a id ops ih =>
    obtain ⟨same, rest⟩ := List.cons.inj addressed
    exact same ▸ .delete t (ih rest)
  | case5 ops a hi hk hm hd =>
    cases ops with
    | nil =>
      rw [List.map_eq_nil_iff.1 addressed.symm]
      exact .nil
    | cons op ops =>
      cases a with
      | nil =>
        cases op with
        | insert dsl => exact absurd rfl (hi dsl ops)
        | keep => cases addressed
        | modify => cases addressed
        | delete => cases addressed
      | cons t a =>
        cases op with
        | keep id => exact absurd rfl (hk t a id ops rfl)
        | modify id dsl => exact absurd rfl (hm t a id dsl ops rfl)
        | insert dsl => exact absurd rfl (hi dsl ops)
        | delete id => exact absurd rfl (hd t a id ops rfl)

theorem tail_table (x : Token) (a : List Token) (b : List Text) :
    (table (x :: a) b).tail = table a b := by
  rw [table, List.tail_cons]

/-- The entry for `a` without its first token. -/
theorem headD_without (x : Token) (a : List Token) (b : List Text) :
    ((table (x :: a) b).tail.headD []).headD 0 = commonLength (a.map Token.content) b := by
  rw [tail_table, headD_table, headD_row]

/-- The entry for `b` without its first content. -/
theorem headD_inserted (a : List Token) (b : List Text) (y : Text) :
    ((table a (y :: b)).headD []).tail.headD 0 = commonLength (a.map Token.content) b := by
  rw [headD_table, tail_row, headD_row]

/-- The walk along the table keeps what the first entry of the table says. Where one of
the sequences has come to its end the table is not looked at any more. -/
theorem kept_walk (a : List Token) (b : List Text) (rows : List (List Nat))
    (h : a ≠ [] → b ≠ [] → rows = table a b) :
    kept (walk a b rows) = commonLength (a.map Token.content) b := by
  fun_induction walk a b rows with
  | case1 =>
    rw [List.map_nil, commonLength_nil_left]
    rfl
  | case2 y b rows ih =>
    rw [kept_cons_of_not rfl, ih fun none => absurd rfl none, List.map_nil, commonLength_nil_left,
      commonLength_nil_left]
  | case3 x a rows ih =>
    rw [kept_cons_of_not rfl, ih fun _ none => absurd rfl none, commonLength_nil_right,
      commonLength_nil_right]
  | case4 x a b rows ih =>
    have full : rows = table (x :: a) (x.content :: b) :=
      h (List.cons_ne_nil _ _) (List.cons_ne_nil _ _)
    have rest : rows.tail.map List.tail = table a b := by
      rw [full, tail_table, map_tail_table]
    rw [kept_cons_of_keep rfl, ih fun _ _ => rest, List.map_cons, commonLength, if_pos rfl]
  | case5 x a y b rows without inserted other less ih =>
    have full : rows = table (x :: a) (y :: b) :=
      h (List.cons_ne_nil _ _) (List.cons_ne_nil _ _)
    have rest : rows.map List.tail = table (x :: a) b := by
      rw [full, map_tail_table]
    have ih' : kept (walk (x :: a) b (rows.map List.tail))
        = commonLength ((x :: a).map Token.content) b := by
      simpa using ih fun _ _ => by simpa using rest
    have skips : commonLength (a.map Token.content) (y :: b)
        ≤ commonLength ((x :: a).map Token.content) b := by
      rw [← headD_without x a (y :: b), ← headD_inserted (x :: a) b y, ← full]
      exact less
    rw [kept_cons_of_not rfl, ih', List.map_cons, commonLength, if_neg other, ← List.map_cons,
      Nat.max_eq_right skips]
  | case6 x a y b rows without inserted other less ih =>
    have full : rows = table (x :: a) (y :: b) :=
      h (List.cons_ne_nil _ _) (List.cons_ne_nil _ _)
    have rest : rows.tail = table a (y :: b) := by
      rw [full, tail_table]
    have skips : commonLength ((x :: a).map Token.content) b
        ≤ commonLength (a.map Token.content) (y :: b) := by
      rw [← headD_without x a (y :: b), ← headD_inserted (x :: a) b y, ← full]
      exact Nat.le_of_not_le less
    rw [kept_cons_of_not rfl, ih fun _ _ => rest, List.map_cons, commonLength, if_neg other,
      ← List.map_cons, Nat.max_eq_left skips]

/-- Where the limit allows it, the alignment keeps as many tokens as possible. -/
theorem bounds_align {a : List Token} {b : List Text} {limit : Int}
    (fits : (a.length : Int) ≤ limit ∨ (b.length : Int) ≤ limit) :
    Bounds (a.map Token.content) b (kept (align a b limit)) := by
  have within : ¬(limit < a.length ∧ limit < b.length) := by omega
  have walked : kept (align a b limit) = commonLength (a.reverse.map Token.content) b.reverse := by
    rw [align, if_neg within, kept, List.countP_reverse]
    exact kept_walk _ _ _ fun _ _ => rfl
  have turned := (bounds_commonLength (a.reverse.map Token.content) b.reverse).reverse
  rwa [← walked, List.map_reverse, List.reverse_reverse, List.reverse_reverse] at turned

/-- Merging keeps what was kept. -/
theorem kept_merge (ops : List Patch) : kept (merge ops) = kept ops := by
  fun_induction merge ops with
  | case1 id dsl ops ih =>
    rw [kept_cons_of_not rfl, ih, kept_cons_of_not rfl, kept_cons_of_not rfl]
  | case2 op ops _ ih => rw [kept, List.countP_cons, ← kept, ih, kept, kept, List.countP_cons]
  | case3 => rfl

/-! ## 4. The changes -/

/-- What is left of two sequences after what both begin with, and then what both end
with, has been taken off. -/
def middle (source : List Token) (edited : List Text) : List Token × List Text :=
  let (_, source, edited) := commonStart source edited
  (commonEnd source edited).2

/-- The changes between two sequences: what is common at the ends is kept, the middle
is aligned. -/
theorem exists_ends (source : List Token) (edited : List Text) (limit : Int) :
    ∃ first last : List Token,
      source = first ++ ((middle source edited).1 ++ last)
      ∧ edited = first.map Token.content
        ++ ((middle source edited).2 ++ last.map Token.content)
      ∧ diff source edited limit = merge (keeps first
        ++ align (middle source edited).1 (middle source edited).2 limit ++ keeps last) := by
  rcases hs : commonStart source edited with ⟨first, a, b⟩
  rcases he : commonEnd a b with ⟨last, a', b'⟩
  obtain ⟨hsource, hedited⟩ := eq_of_commonStart hs
  obtain ⟨ha, hb⟩ := eq_of_commonEnd he
  have left : middle source edited = (a', b') := by
    rw [middle, hs]
    exact congrArg Prod.snd he
  rw [left]
  refine ⟨first, last, by rw [hsource, ha], by rw [hedited, hb], ?_⟩
  rw [diff, hs]
  dsimp only
  rw [he]

/-- A longest common subsequence of two sequences has `n` members. -/
structure Longest (a b : List Text) (n : Nat) : Prop where
  exists_common : ∃ common : List Text,
    common.Sublist a ∧ common.Sublist b ∧ common.length = n
  bounds : Bounds a b n

/-- **Changes keep as much as possible.** If at least one of the two middles is within
the limit, the changes keep as many tokens as a longest common subsequence of all
contents has members, and no other changes from the one sequence to the other keep
more. -/
theorem longest_kept (source : List Token) (edited : List Text) (limit : Int)
    (fits : ((middle source edited).1.length : Int) ≤ limit
      ∨ ((middle source edited).2.length : Int) ≤ limit) :
    Longest (source.map Token.content) edited (kept (diff source edited limit))
    ∧ ∀ ops : List Patch, targets ops = source.map Token.id → replay source ops = edited →
      kept ops ≤ kept (diff source edited limit) := by
  obtain ⟨first, last, hsource, hedited, hdiff⟩ := exists_ends source edited limit
  have count : kept (diff source edited limit)
      = (first.map Token.content).length + ((last.map Token.content).length
        + kept (align (middle source edited).1 (middle source edited).2 limit)) := by
    rw [hdiff, kept_merge, kept_append, kept_append, kept_keeps, kept_keeps, List.length_map,
      List.length_map]
    omega
  have bound : Bounds (source.map Token.content) edited (kept (diff source edited limit)) := by
    have whole := ((bounds_align fits).append_right (last.map Token.content)).append_left
      (first.map Token.content)
    rwa [← count, ← hedited, ← List.map_append, ← List.map_append, ← hsource] at whole
  refine ⟨⟨(script_diff source edited limit).exists_kept, bound⟩, fun ops addressed left => ?_⟩
  obtain ⟨common, ha, hb, hl⟩ := (script_of_replay addressed left).exists_kept
  rw [← hl]
  exact bound common ha hb

/-- Four words of which the two in the middle change places. -/
def crossed : List Token := [⟨"ok", 1⟩, ⟨"hann", 2⟩, ⟨"kom", 3⟩, ⟨"ok", 5⟩]

/-- Both middles have two tokens, of which one is kept. -/
theorem longest_kept_crossed :
    (((middle crossed ["ok", "kom", "hann", "ok"]).1.length : Int) ≤ 2
      ∨ ((middle crossed ["ok", "kom", "hann", "ok"]).2.length : Int) ≤ 2)
    ∧ Longest (crossed.map Token.content) ["ok", "kom", "hann", "ok"] 3
    ∧ ∀ ops : List Patch, targets ops = crossed.map Token.id →
      replay crossed ops = ["ok", "kom", "hann", "ok"] → kept ops ≤ 3 := by
  have fits : ((middle crossed ["ok", "kom", "hann", "ok"]).1.length : Int) ≤ 2
      ∨ ((middle crossed ["ok", "kom", "hann", "ok"]).2.length : Int) ≤ 2 := by decide
  have count : kept (diff crossed ["ok", "kom", "hann", "ok"] 2) = 3 := by decide +kernel
  have result := longest_kept crossed ["ok", "kom", "hann", "ok"] 2 fits
  rw [count] at result
  exact ⟨fits, result⟩

end Transcription.Patch
