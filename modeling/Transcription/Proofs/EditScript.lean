/-
Transcription.Proofs.EditScript — the changes that `Patch.diff` finds are an
edit script from one sequence of tokens to another.

`Script a ops b` is the relation: walked from the left, every operation but
an insertion takes the next token of `a` and names its number, and every
operation but a deletion leaves the next content of `b`. Scripts can be put
one after the other and read from the end, so that each stage of the
alignment is one lemma: the walk along the table (`script_walk`, which needs
nothing about the table), the replacement beyond the limit (`script_align`),
the merging of a deletion with an insertion (`script_merge`) and the trimming
at both ends (`script_diff`).

**`diff_replays`** is what comes out of it, in terms of what is read off the
operations alone.
-/
import Transcription.Patch.Alignment

namespace Transcription.Patch

/-! ## 1. What operations address and leave -/

/-- The numbers that operations address, in order. -/
def targets (ops : List Patch) : List Int :=
  ops.filterMap Patch.target?

/-- The contents that operations leave of a sequence of tokens. Each
operation but an insertion takes the next token, whatever its number. -/
def replay : List Token → List Patch → List Text
  | a, .insert dsl :: ops => dsl :: replay a ops
  | t :: a, .keep _ :: ops => t.content :: replay a ops
  | _ :: a, .modify _ dsl :: ops => dsl :: replay a ops
  | _ :: a, .delete _ :: ops => replay a ops
  | _, _ => []

/-- The text that an operation carries. -/
def newText? : Patch → Option Text
  | .modify _ dsl | .insert dsl => some dsl
  | .keep _ | .delete _ => none

/-! ## 2. Scripts -/

/-- The operations lead from the tokens to the contents. -/
inductive Script : List Token → List Patch → List Text → Prop
  | nil : Script [] [] []
  | keep (t : Token) {a : List Token} {ops : List Patch} {b : List Text} :
      Script a ops b → Script (t :: a) (.keep t.id :: ops) (t.content :: b)
  | modify (t : Token) (dsl : Text) {a : List Token} {ops : List Patch} {b : List Text} :
      Script a ops b → Script (t :: a) (.modify t.id dsl :: ops) (dsl :: b)
  | insert (dsl : Text) {a : List Token} {ops : List Patch} {b : List Text} :
      Script a ops b → Script a (.insert dsl :: ops) (dsl :: b)
  | delete (t : Token) {a : List Token} {ops : List Patch} {b : List Text} :
      Script a ops b → Script (t :: a) (.delete t.id :: ops) b

namespace Script

variable {a a' : List Token} {ops ops' : List Patch} {b b' : List Text}

/-- A script addresses every token once, in order. -/
theorem targets_eq (h : Script a ops b) : targets ops = a.map Token.id := by
  induction h with
  | nil => rfl
  | keep t _ ih => simpa [targets, target?] using ih
  | modify t dsl _ ih => simpa [targets, target?] using ih
  | insert dsl _ ih => exact ih
  | delete t _ ih => simpa [targets, target?] using ih

/-- A script leaves the contents that it leads to. -/
theorem replay_eq (h : Script a ops b) : replay a ops = b := by
  induction h with
  | nil => rfl
  | keep t _ ih => rw [replay, ih]
  | modify t dsl _ ih => rw [replay, ih]
  | insert dsl _ ih => rw [replay, ih]
  | delete t _ ih => rw [replay, ih]

/-- What a script writes is among the contents that it leads to. -/
theorem newText_mem (h : Script a ops b) {op : Patch} {dsl : Text}
    (ho : op ∈ ops) (hd : newText? op = some dsl) : dsl ∈ b := by
  induction h with
  | nil => cases ho
  | keep t _ ih =>
    rcases List.mem_cons.1 ho with rfl | ho
    · simp [newText?] at hd
    · exact List.mem_cons_of_mem _ (ih ho)
  | modify t new _ ih =>
    rcases List.mem_cons.1 ho with rfl | ho
    · simp only [newText?, Option.some.injEq] at hd
      rw [hd]
      exact List.mem_cons_self
    · exact List.mem_cons_of_mem _ (ih ho)
  | insert new _ ih =>
    rcases List.mem_cons.1 ho with rfl | ho
    · simp only [newText?, Option.some.injEq] at hd
      rw [hd]
      exact List.mem_cons_self
    · exact List.mem_cons_of_mem _ (ih ho)
  | delete t _ ih =>
    rcases List.mem_cons.1 ho with rfl | ho
    · simp [newText?] at hd
    · exact ih ho

/-- A script that leaves nothing deletes every token. -/
theorem eq_deletions (h : Script a ops []) : ops = a.map fun t => .delete t.id := by
  induction a generalizing ops with
  | nil => cases h; rfl
  | cons t a ih =>
    cases h with
    | delete _ h => rw [ih h, List.map_cons]

/-- One script after another. -/
theorem append (h : Script a ops b) (h' : Script a' ops' b') :
    Script (a ++ a') (ops ++ ops') (b ++ b') := by
  induction h with
  | nil => exact h'
  | keep t _ ih => exact .keep t ih
  | modify t dsl _ ih => exact .modify t dsl ih
  | insert dsl _ ih => exact .insert dsl ih
  | delete t _ ih => exact .delete t ih

/-- A script read from its end. -/
theorem reverse (h : Script a ops b) : Script a.reverse ops.reverse b.reverse := by
  induction h with
  | nil => exact .nil
  | keep t _ ih => simpa using ih.append (.keep t .nil)
  | modify t dsl _ ih => simpa using ih.append (.modify t dsl .nil)
  | insert dsl _ ih => simpa using ih.append (.insert dsl .nil)
  | delete t _ ih => simpa using ih.append (.delete t .nil)

end Script

/-! ## 3. The stages of the alignment -/

theorem script_keeps (ts : List Token) : Script ts (keeps ts) (ts.map Token.content) := by
  induction ts with
  | nil => exact .nil
  | cons t ts ih => exact .keep t ih

theorem script_deletions (ts : List Token) : Script ts (ts.map fun t => .delete t.id) [] := by
  induction ts with
  | nil => exact .nil
  | cons t ts ih => exact .delete t ih

theorem script_insertions (b : List Text) : Script [] (b.map .insert) b := by
  induction b with
  | nil => exact .nil
  | cons dsl b ih => exact .insert dsl ih

/-- Whatever stands in the table, the walk along it is a script: the table
decides between scripts only. -/
theorem script_walk (a : List Token) (b : List Text) (rows : List (List Nat)) :
    Script a (walk a b rows) b := by
  fun_induction walk a b rows with
  | case1 => exact .nil
  | case2 y b rows ih => exact .insert y ih
  | case3 x a rows ih => exact .delete x ih
  | case4 x a b rows ih => exact .keep x ih
  | case5 x a y b rows without inserted _ _ ih => exact .insert y (by simpa using ih)
  | case6 x a y b rows without inserted _ _ ih => exact .delete x ih

theorem script_align (a : List Token) (b : List Text) (limit : Int) :
    Script a (align a b limit) b := by
  unfold align
  split
  · simpa using (script_deletions a).append (script_insertions b)
  · simpa using (script_walk a.reverse b.reverse (table a.reverse b.reverse)).reverse

theorem script_merge {a : List Token} {ops : List Patch} {b : List Text}
    (h : Script a ops b) : Script a (merge ops) b := by
  fun_induction merge ops generalizing a b with
  | case1 id dsl ops ih =>
    cases h with
    | delete t h =>
      cases h with
      | insert dsl h => exact .modify t dsl (ih h)
  | case2 op ops _ ih =>
    cases h with
    | keep t h => exact .keep t (ih h)
    | modify t dsl h => exact .modify t dsl (ih h)
    | insert dsl h => exact .insert dsl (ih h)
    | delete t h => exact .delete t (ih h)
  | case3 => exact h

/-! ## 4. Trimming -/

/-- What two sequences begin with in common begins both of them. -/
theorem eq_of_commonStart {a first a' : List Token} {b b' : List Text}
    (h : commonStart a b = (first, a', b')) :
    a = first ++ a' ∧ b = first.map Token.content ++ b' := by
  fun_induction commonStart a b generalizing first a' b' with
  | case1 x a b common rest hs ih =>
    cases h
    have both := ih hs
    exact ⟨congrArg _ both.1, congrArg _ both.2⟩
  | case2 x a y b _ => cases h; exact ⟨rfl, rfl⟩
  | case3 a b _ => cases h; exact ⟨rfl, rfl⟩

/-- What two sequences end with in common ends both of them. -/
theorem eq_of_commonEnd {a last a' : List Token} {b b' : List Text}
    (h : commonEnd a b = (last, a', b')) :
    a = a' ++ last ∧ b = b' ++ last.map Token.content := by
  unfold commonEnd at h
  rcases hs : commonStart a.reverse b.reverse with ⟨first, c, d⟩
  rw [hs] at h
  cases h
  have both := eq_of_commonStart hs
  constructor
  · simpa using congrArg List.reverse both.1
  · simpa using congrArg List.reverse both.2

/-- The changes between two sequences are a script from one to the other. -/
theorem script_diff (source : List Token) (edited : List Text) (limit : Int) :
    Script source (diff source edited limit) edited := by
  unfold diff
  rcases hs : commonStart source edited with ⟨first, a, b⟩
  rcases he : commonEnd a b with ⟨last, a', b'⟩
  obtain ⟨hsource, hedited⟩ := eq_of_commonStart hs
  obtain ⟨ha, hb⟩ := eq_of_commonEnd he
  have middle : Script a (align a' b' limit ++ keeps last) b := by
    rw [ha, hb]
    exact (script_align a' b' limit).append (script_keeps last)
  have whole : Script source (keeps first ++ (align a' b' limit ++ keeps last)) edited := by
    rw [hsource, hedited]
    exact (script_keeps first).append middle
  dsimp only
  rw [he]
  dsimp only
  rw [List.append_assoc]
  exact script_merge whole

/-- **Changes are an edit script**: they address every token of the source
once, in order, and with each kept token in its place they leave exactly the
edited contents. -/
theorem diff_replays (source : List Token) (edited : List Text) (limit : Int) :
    targets (diff source edited limit) = source.map Token.id
      ∧ replay source (diff source edited limit) = edited := by
  have h := script_diff source edited limit
  exact ⟨h.targets_eq, h.replay_eq⟩

end Transcription.Patch
