/-
Transcription.Proofs.LocalEdits — where one stretch of tokens is replaced by contents that
it shares none with, the changes are those of the stretch.

What stands before and after the stretch is taken off again, whatever is repeated in it,
since the stretch and its replacement neither begin nor end alike (`diff_between`). In what
is left no token has a partner: all entries of the table are zero, the walk along it inserts
as long as it can, and read from the start the deletions come first (`align_apart`), as they
do beyond the limit. Merging then pairs the last deletion with the first insertion.

**`replaced_locally`**: so all tokens outside the stretch are kept, and inside it all but
one are deleted, one is changed, and what is left of the contents is inserted.
-/
import Transcription.Proofs.KeptTokens

namespace Transcription.Patch

variable {x : Token} {y : Text} {a before after : List Token} {b : List Text}

/-! ## 1. What both sequences begin and end with -/

/-- No common beginning goes on behind a place where the sequences differ. -/
theorem commonStart_append (h : ∀ t ∈ a.head?, ∀ y ∈ b.head?, t.content ≠ y) :
    commonStart (before ++ a) (before.map Token.content ++ b) = (before, a, b) := by
  induction before with
  | nil =>
    cases a with
    | nil => rfl
    | cons t a =>
      cases b with
      | nil => rfl
      | cons y b => simp [commonStart, h t rfl y rfl]
  | cons t before ih => simp [commonStart, ih]

theorem commonEnd_append (h : ∀ t ∈ a.getLast?, ∀ y ∈ b.getLast?, t.content ≠ y) :
    commonEnd (a ++ after) (b ++ after.map Token.content) = (after, a, b) := by
  have turned : commonStart (after.reverse ++ a.reverse)
      (after.reverse.map Token.content ++ b.reverse) = (after.reverse, a.reverse, b.reverse) :=
    commonStart_append (by simpa only [List.head?_reverse] using h)
  rw [List.map_reverse] at turned
  simp only [commonEnd, List.reverse_append, turned, List.reverse_reverse]

/-- Two sequences that agree around stretches which neither begin nor end alike: only the
stretches are aligned. -/
theorem diff_between (starts : ∀ t ∈ a.head?, ∀ y ∈ b.head?, t.content ≠ y)
    (ends : ∀ t ∈ a.getLast?, ∀ y ∈ b.getLast?, t.content ≠ y) (ha : a ≠ []) (hb : b ≠ [])
    (limit : Int) :
    diff (before ++ (a ++ after)) (before.map Token.content ++ (b ++ after.map Token.content))
        limit
      = merge (keeps before ++ align a b limit ++ keeps after) := by
  have first : commonStart (before ++ (a ++ after))
      (before.map Token.content ++ (b ++ after.map Token.content))
      = (before, a ++ after, b ++ after.map Token.content) := by
    refine commonStart_append fun t ht y hy => ?_
    rw [List.head?_append_of_ne_nil _ ha] at ht
    rw [List.head?_append_of_ne_nil _ hb] at hy
    exact starts t ht y hy
  simp only [diff, first, commonEnd_append ends]

/-! ## 2. Sequences without a common member -/

theorem commonLength_apart {a b : List Text} (apart : ∀ t ∈ a, t ∉ b) : commonLength a b = 0 := by
  fun_induction commonLength a b with
  | case1 x a b ih => exact absurd List.mem_cons_self (apart _ List.mem_cons_self)
  | case2 x a y b other iha ihb =>
    rw [iha fun t ht => apart t (List.mem_cons_of_mem _ ht),
      ihb fun t ht hb => apart t ht (List.mem_cons_of_mem _ hb)]
    rfl
  | case3 => rfl

/-- Where no two members are alike, the walk inserts as long as it can. -/
theorem walk_apart (a : List Token) (b : List Text) (rows : List (List Nat))
    (h : a ≠ [] → b ≠ [] → rows = table a b) (apart : ∀ t ∈ a, t.content ∉ b) :
    walk a b rows = b.map .insert ++ a.map fun t => .delete t.id := by
  fun_induction walk a b rows with
  | case1 => rfl
  | case2 y b rows ih =>
    rw [ih (fun none => absurd rfl none) (List.forall_mem_nil _)]
    rfl
  | case3 x a rows ih =>
    rw [ih (fun _ none => absurd rfl none) (fun _ _ => List.not_mem_nil)]
    rfl
  | case4 x a b rows ih => exact absurd List.mem_cons_self (apart x List.mem_cons_self)
  | case5 x a y b rows without inserted other less ih =>
    have full : rows = table (x :: a) (y :: b) := h (List.cons_ne_nil _ _) (List.cons_ne_nil _ _)
    have rest : rows.map List.tail = table (x :: a) b := by rw [full, map_tail_table]
    have left := ih (fun _ _ => by simpa using rest)
      fun t ht hb => apart t ht (List.mem_cons_of_mem _ hb)
    rw [List.map_cons, List.cons_append, ← left]
    simp
  | case6 x a y b rows without inserted other less ih =>
    have full : rows = table (x :: a) (y :: b) := h (List.cons_ne_nil _ _) (List.cons_ne_nil _ _)
    -- both entries that are compared are zero
    have zero : without = 0 := by
      have none : ∀ t ∈ a.map Token.content, t ∉ y :: b :=
        List.forall_mem_map.2 fun t ht => apart t (List.mem_cons_of_mem _ ht)
      have entry := headD_without x a (y :: b)
      rwa [← full, commonLength_apart none] at entry
    exact absurd (zero ▸ Nat.zero_le inserted) less

/-- Without a common member everything is deleted and then everything inserted. -/
theorem align_apart (apart : ∀ t ∈ a, t.content ∉ b) (limit : Int) :
    align a b limit = a.map (fun t => .delete t.id) ++ b.map .insert := by
  unfold align
  split
  · rfl
  · have turned : ∀ t ∈ a.reverse, t.content ∉ b.reverse := fun t ht hb =>
      apart t (List.mem_reverse.1 ht) (List.mem_reverse.1 hb)
    have walked := walk_apart a.reverse b.reverse _ (fun _ _ => rfl) turned
    dsimp only
    rw [walked, List.reverse_append, ← List.map_reverse, ← List.map_reverse, List.reverse_reverse,
      List.reverse_reverse]

/-! ## 3. Merging -/

theorem merge_keeps (ts : List Token) (ops : List Patch) :
    merge (keeps ts ++ ops) = keeps ts ++ merge ops := by
  induction ts with
  | nil => rfl
  | cons t ts ih => exact congrArg _ ih

theorem merge_insertions (b : List Text) (ops : List Patch) :
    merge (b.map .insert ++ ops) = b.map .insert ++ merge ops := by
  induction b with
  | nil => rfl
  | cons y b ih => exact congrArg _ ih

/-- The last deletion and the first insertion are one change. -/
theorem merge_replaced (a : List Token) (x : Token) (y : Text) (ops : List Patch) :
    merge (a.map (fun t => .delete t.id) ++ .delete x.id :: .insert y :: ops)
      = a.map (fun t => .delete t.id) ++ .modify x.id y :: merge ops := by
  induction a with
  | nil => rfl
  | cons t a ih =>
    -- a deletion before another one is left as it is
    cases a with
    | nil => exact congrArg _ ih
    | cons t' a => exact congrArg _ ih

theorem merge_kept (ts : List Token) : merge (keeps ts) = keeps ts := by
  simpa [merge] using merge_keeps ts []

/-! ## 4. A stretch that is replaced -/

/-- Sequences that differ in one token: it is changed, and all others are kept. -/
theorem diff_change (h : x.content ≠ y) (limit : Int) :
    diff (before ++ x :: after) (before.map Token.content ++ y :: after.map Token.content) limit
      = keeps before ++ .modify x.id y :: keeps after := by
  have differ : ∀ t ∈ some x, ∀ u ∈ some y, t.content ≠ u := by
    rintro _ ⟨⟩ _ ⟨⟩
    exact h
  have split := @diff_between [x] before after [y] differ differ (by simp) (by simp) limit
  have aligned : align [x] [y] limit = [.delete x.id, .insert y] :=
    align_apart (by simpa using h) limit
  have merged := merge_replaced [] x y (keeps after)
  rw [merge_kept] at merged
  rw [aligned, List.append_assoc, merge_keeps] at split
  exact split.trans (congrArg _ merged)

/-- **A local edit stays local.** For all tokens with a stretch of them replaced by contents
of which none is in the stretch, and any limit: every token before and after the stretch is
kept, whatever is repeated among all these; in the stretch all tokens but the last are
deleted, the last one becomes the first of the contents, and the others are inserted. -/
theorem replaced_locally (before stretch after : List Token) (contents : List Text)
    (hs : stretch ≠ []) (hc : contents ≠ []) (apart : ∀ t ∈ stretch, t.content ∉ contents)
    (limit : Int) :
    diff (before ++ stretch ++ after)
        (before.map Token.content ++ contents ++ after.map Token.content) limit
      = keeps before
        ++ (stretch.dropLast.map (fun t => .delete t.id)
          ++ .modify (stretch.getLast hs).id (contents.head hc) :: contents.tail.map .insert)
        ++ keeps after := by
  have differ : ∀ t ∈ stretch, ∀ y ∈ contents, t.content ≠ y := fun t ht y hy same =>
    apart t ht (same ▸ hy)
  have starts : ∀ t ∈ stretch.head?, ∀ y ∈ contents.head?, t.content ≠ y := fun t ht y hy =>
    differ t (List.mem_of_mem_head? ht) y (List.mem_of_mem_head? hy)
  have ends : ∀ t ∈ stretch.getLast?, ∀ y ∈ contents.getLast?, t.content ≠ y := fun t ht y hy =>
    differ t (List.mem_of_mem_getLast? ht) y (List.mem_of_mem_getLast? hy)
  have deleted : stretch.map (fun t => Patch.delete t.id)
      = stretch.dropLast.map (fun t => .delete t.id) ++ [.delete (stretch.getLast hs).id] := by
    conv_lhs => rw [← List.dropLast_append_getLast hs, List.map_append]
    rfl
  have inserted : contents.map Patch.insert
      = .insert (contents.head hc) :: contents.tail.map .insert := by
    conv_lhs => rw [← List.cons_head_tail hc, List.map_cons]
  calc diff (before ++ stretch ++ after)
        (before.map Token.content ++ contents ++ after.map Token.content) limit
      = merge (keeps before ++ align stretch contents limit ++ keeps after) := by
        rw [List.append_assoc, List.append_assoc, diff_between starts ends hs hc]
    _ = merge (keeps before ++ (stretch.dropLast.map (fun t => .delete t.id)
          ++ .delete (stretch.getLast hs).id :: .insert (contents.head hc)
            :: (contents.tail.map .insert ++ keeps after))) := by
        rw [align_apart apart, deleted, inserted]
        simp only [List.append_assoc, List.cons_append, List.nil_append]
    _ = keeps before ++ (stretch.dropLast.map (fun t => .delete t.id)
          ++ .modify (stretch.getLast hs).id (contents.head hc)
            :: (contents.tail.map .insert ++ keeps after)) := by
        rw [merge_keeps, merge_replaced, merge_insertions, merge_kept]
    _ = _ := by simp only [List.append_assoc, List.cons_append]

/-- Two tokens of a line that repeats itself, replaced by three contents. -/
theorem replaced_locally_repeated :
    let line : List Token := [⟨"ok", 0⟩, ⟨"hann", 1⟩, ⟨"ok", 2⟩, ⟨"kom", 4⟩, ⟨"ok", 5⟩]
    (∀ t ∈ [(⟨"ok", 2⟩ : Token), ⟨"kom", 4⟩], t.content ∉ (["hann", "for", "hann"] : List Text))
    ∧ diff line ["ok", "hann", "hann", "for", "hann", "ok"] 1
      = [.keep 0, .keep 1, .delete 2, .modify 4 "hann", .insert "for", .insert "hann",
          .keep 5] := by
  intro line
  have apart : ∀ t ∈ [(⟨"ok", 2⟩ : Token), ⟨"kom", 4⟩],
      t.content ∉ (["hann", "for", "hann"] : List Text) := by decide
  exact ⟨apart, replaced_locally [⟨"ok", 0⟩, ⟨"hann", 1⟩] [⟨"ok", 2⟩, ⟨"kom", 4⟩] [⟨"ok", 5⟩]
    ["hann", "for", "hann"] (by decide) (by decide) apart 1⟩

end Transcription.Patch
