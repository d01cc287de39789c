/-
Transcription.Proofs.Placement — reconstruction puts every operation in its
place.

`Patch.reconstruct` walks segments and operations with two cursors: it
compiles the insertions that are due before a segment, and leaves an
operation for another segment waiting. `Patch.placed` says the same without a
cursor. It walks the segments only, looks up the operation on each one by its
number, and writes an insertion before the first editable segment after the
one that the last operation before it addresses.

The invariant that ties the cursors together is an equation: the numbers that
the remaining operations address are those of the tokens of the remaining
segments. `reconstruct_step` takes one editable segment off both, and
`reconstruct_placed` is the induction over the segments. What `Patch.compute`
yields meets the invariant at the start, on both of its ways
(`targets_compute`).
-/
import Mathlib.Data.List.Nodup
import Transcription.Patch.Reconstruction
import Transcription.Proofs.EditScript

namespace Transcription.Patch

/-! ## 1. Places -/

/-- The insertions among operations, each with the number that the last
operation on a segment before it addresses. The anchor stands for what came
before the first one. -/
def anchored : (anchor : Option Int) → List Patch → List (Option Int × Text)
  | _, [] => []
  | anchor, .insert dsl :: ops => (anchor, dsl) :: anchored anchor ops
  | _, op :: ops => anchored op.target? ops

/-- The texts with an anchor, in order. -/
def behind (anchor : Option Int) (entries : List (Option Int × Text)) : List Text :=
  (entries.filter fun entry => entry.1 = anchor).map Prod.snd

/-- The texts that operations insert behind an anchor. -/
def insertedAt (ops : List Patch) (anchor : Option Int) : List Text :=
  behind anchor (anchored none ops)

/-- The texts that operations insert, in order. -/
def insertedTexts (ops : List Patch) : List Text :=
  ops.filterMap fun
    | .insert dsl => some dsl
    | _ => none

/-- The operation on a segment. -/
def onSegment? (ops : List Patch) (segment : Segment) : Option Patch :=
  ops.find? fun op => op.target? = some segment.id

/-- What stands in the place of a segment that can be edited. -/
def outcome (s : Settings) (a : Apparatus) (ops : List Patch) (segment : Segment) : Text :=
  match onSegment? ops segment with
  | some (.modify _ dsl) => recompile s a dsl segment
  | some (.delete _) => []
  | _ => segment.serialize

/-- The markup of some insertions. -/
def fragments (s : Settings) (a : Apparatus) (dsls : List Text) : Text :=
  dsls.flatMap (Edition.ofFragment s a)

/-- The markup of segments, where `out` tells what stands in the place of a
segment that can be edited, and `ahead` what stands before the first such
segment after the one with a number, or at the end if there is none. -/
def placed (ahead : Option Int → Text) (out : Segment → Text) :
    (anchor : Option Int) → List Segment → Text
  | anchor, [] => ahead anchor
  | anchor, segment :: ss =>
      if segment.isContent then
        ahead anchor ++ out segment ++ placed ahead out (some segment.id) ss
      else segment.serialize ++ placed ahead out anchor ss

/-! ## 2. Insertions and their anchors -/

section Anchors

variable {anchor x : Option Int} {ins : List Text} {ops : List Patch}

theorem targets_insertions (ins : List Text) (ops : List Patch) :
    targets (ins.map .insert ++ ops) = targets ops := by
  induction ins with
  | nil => rfl
  | cons dsl ins ih => exact ih

theorem targets_cons {op : Patch} {id : Int} (h : op.target? = some id) (ops : List Patch) :
    targets (op :: ops) = id :: targets ops := by
  simp [targets, h]

theorem anchored_insertions (anchor : Option Int) (ins : List Text) (ops : List Patch) :
    anchored anchor (ins.map .insert ++ ops)
      = ins.map (fun dsl => (anchor, dsl)) ++ anchored anchor ops := by
  induction ins with
  | nil => rfl
  | cons dsl ins ih => exact congrArg _ ih

theorem anchored_cons {op : Patch} {id : Int} (h : op.target? = some id) (anchor : Option Int)
    (ops : List Patch) : anchored anchor (op :: ops) = anchored (some id) ops := by
  cases op with
  | insert dsl => simp [target?] at h
  | keep _ => rw [anchored, h]; simp
  | modify _ _ => rw [anchored, h]; simp
  | delete _ => rw [anchored, h]; simp

/-- An anchor is the first one or a number that an operation addresses. -/
theorem anchor_of_mem {entry : Option Int × Text} (h : entry ∈ anchored anchor ops) :
    entry.1 = anchor ∨ ∃ id ∈ targets ops, entry.1 = some id := by
  induction ops generalizing anchor with
  | nil => cases h
  | cons op ops ih =>
    cases ho : op.target? with
    | none =>
      cases op with
      | insert dsl =>
        rcases List.mem_cons.1 h with rfl | h
        · exact .inl rfl
        · exact ih h
      | _ => simp [target?] at ho
    | some id =>
      rw [anchored_cons ho] at h
      rw [targets_cons ho]
      rcases ih h with h | ⟨id', hid, h⟩
      · exact .inr ⟨id, List.mem_cons_self, h⟩
      · exact .inr ⟨id', List.mem_cons_of_mem _ hid, h⟩

theorem behind_append (x : Option Int) (entries more : List (Option Int × Text)) :
    behind x (entries ++ more) = behind x entries ++ behind x more := by
  simp [behind]

theorem behind_same (anchor : Option Int) (ins : List Text) :
    behind anchor (ins.map fun dsl => (anchor, dsl)) = ins := by
  induction ins with
  | nil => rfl
  | cons dsl ins ih => simpa [behind] using ih

theorem behind_other (h : x ≠ anchor) (ins : List Text) :
    behind x (ins.map fun dsl => (anchor, dsl)) = [] := by
  simp [behind, Ne.symm h]

theorem behind_eq_nil (hx : x ≠ anchor) (ht : ∀ id ∈ targets ops, x ≠ some id) :
    behind x (anchored anchor ops) = [] := by
  unfold behind
  rw [List.filter_eq_nil_iff.2]
  · rfl
  · intro entry he hxe
    have hxe : entry.1 = x := by simpa using hxe
    rcases anchor_of_mem he with h | ⟨id, hid, h⟩
    · exact hx (hxe.symm.trans h)
    · exact ht id hid (hxe.symm.trans h)

/-- Over the first anchor and numbers that the addressed ones are among, in
the same order, every insertion comes once. -/
theorem flatMap_behind {ids : List Int} (hs : (targets ops).Sublist ids)
    (hn : (anchor :: ids.map some).Nodup) :
    (anchor :: ids.map some).flatMap (fun x => behind x (anchored anchor ops))
      = insertedTexts ops := by
  induction ops generalizing anchor ids with
  | nil => simp [anchored, behind, insertedTexts]
  | cons op ops ih =>
    cases ho : op.target? with
    | none =>
      cases op with
      | insert dsl =>
        have others : ∀ x ∈ ids.map some,
            behind x (anchored anchor (.insert dsl :: ops)) = behind x (anchored anchor ops) := by
          intro x hx
          have hne : x ≠ anchor := fun he => (List.nodup_cons.1 hn).1 (he ▸ hx)
          simp [anchored, behind, Ne.symm hne]
        have first : behind anchor (anchored anchor (.insert dsl :: ops))
            = dsl :: behind anchor (anchored anchor ops) := by
          simp [anchored, behind]
        have rest := ih hs hn
        rw [List.flatMap_cons] at rest
        rw [List.flatMap_cons, first, List.flatMap_congr others, List.cons_append, rest]
        rfl
      | _ => simp [target?] at ho
    | some id =>
      rw [targets_cons ho] at hs
      obtain ⟨before, after, rfl, hmem, later⟩ := List.cons_sublist_iff.1 hs
      obtain ⟨skipped, between, rfl⟩ := List.append_of_mem hmem
      have split : anchor :: (skipped ++ id :: between ++ after).map some
          = (anchor :: skipped.map some) ++ (some id :: (between ++ after).map some) := by simp
      rw [split] at hn ⊢
      obtain ⟨-, hrest, apart⟩ := List.nodup_append.1 hn
      have nothing : ∀ x ∈ anchor :: skipped.map some,
          behind x (anchored (some id) ops) = [] := by
        intro x hx
        refine behind_eq_nil (apart x hx _ List.mem_cons_self) fun id' hid' => ?_
        have hafter : id' ∈ between ++ after := List.mem_append_right _ (later.subset hid')
        exact apart x hx _ (List.mem_cons_of_mem _ (List.mem_map_of_mem hafter))
      have rest := ih (later.trans (List.sublist_append_right between after)) hrest
      rw [anchored_cons ho, List.flatMap_append, List.flatMap_eq_nil_iff.2 nothing, rest]
      cases op with
      | insert dsl => simp [target?] at ho
      | _ => rfl

end Anchors

/-! ## 3. Operations and segments -/

section Segments

variable {segment : Segment} {ss : List Segment} {ops later : List Patch}

theorem id_of_ofSegment? {t : Token} (h : Token.ofSegment? segment = some t) :
    t.id = segment.id ∧ segment.isContent = true := by
  unfold Token.ofSegment? at h
  split at h
  · split at h
    · cases h
    · cases h; exact ⟨rfl, rfl⟩
  · split at h
    · cases h
    · cases h; exact ⟨rfl, rfl⟩
  · cases h; exact ⟨rfl, rfl⟩
  · cases h; exact ⟨rfl, rfl⟩
  · cases h

/-- Tokens stand in the order of the segments that can be edited. -/
theorem tokens_sublist (ss : List Segment) :
    ((Token.ofSegments ss).map Token.id).Sublist
      ((ss.filter Segment.isContent).map Segment.id) := by
  induction ss with
  | nil => exact List.Sublist.slnil
  | cons segment ss ih =>
    unfold Token.ofSegments at ih ⊢
    cases ht : Token.ofSegment? segment with
    | none =>
      rw [List.filterMap_cons_none ht, List.filter_cons]
      split
      · exact ih.cons _
      · exact ih
    | some t =>
      obtain ⟨hid, hc⟩ := id_of_ofSegment? ht
      rw [List.filterMap_cons_some ht, List.filter_cons_of_pos hc]
      simp only [List.map_cons, hid]
      exact ih.cons_cons _

theorem mem_ids_of_token {id : Int} (h : id ∈ (Token.ofSegments ss).map Token.id) :
    id ∈ ss.map Segment.id :=
  (List.filter_sublist.map Segment.id).subset ((tokens_sublist ss).subset h)

theorem onSegment?_append (ops later : List Patch) (segment : Segment) :
    onSegment? (ops ++ later) segment = (onSegment? ops segment).or (onSegment? later segment) :=
  List.find?_append

theorem onSegment?_eq_none (h : segment.id ∉ targets ops) : onSegment? ops segment = none := by
  unfold onSegment?
  rw [List.find?_eq_none]
  intro op ho ht
  have ht : op.target? = some segment.id := by simpa using ht
  exact h (List.mem_filterMap.2 ⟨op, ho, ht⟩)

/-- Operations that do not address a segment change nothing about it. -/
theorem outcome_append (s : Settings) (a : Apparatus) (h : segment.id ∉ targets ops) :
    outcome s a (ops ++ later) segment = outcome s a later segment := by
  unfold outcome
  rw [onSegment?_append, onSegment?_eq_none h, Option.none_or]

theorem outcome_cons (s : Settings) (a : Apparatus) {op : Patch}
    (h : op.target? = some segment.id) :
    outcome s a (op :: later) segment = apply s a segment op := by
  have found : onSegment? (op :: later) segment = some op :=
    List.find?_cons_of_pos (by simpa using h)
  unfold outcome
  rw [found]
  cases op <;> rfl

end Segments

/-! ## 4. One segment -/

/-- Operations are some insertions and then none, or one on a segment. -/
theorem exists_insertions (ops : List Patch) :
    ∃ (ins : List Text) (rest : List Patch), ops = ins.map .insert ++ rest
    ∧ (rest = [] ∨ ∃ op later id, rest = op :: later ∧ op.target? = some id) := by
  induction ops with
  | nil => exact ⟨[], [], rfl, .inl rfl⟩
  | cons op ops ih =>
    cases ho : op.target? with
    | some id => exact ⟨[], op :: ops, rfl, .inr ⟨op, ops, id, rfl, ho⟩⟩
    | none =>
      cases op with
      | insert dsl =>
        obtain ⟨ins, rest, rfl, hr⟩ := ih
        exact ⟨dsl :: ins, rest, rfl, hr⟩
      | _ => simp [target?] at ho

section Steps

variable (s : Settings) (a : Apparatus) {segment : Segment} {ss : List Segment}
  {ins : List Text} {rest later : List Patch}

theorem insertions_nil (ins : List Text) :
    insertions s a (ins.map .insert) = (fragments s a ins, []) := by
  induction ins with
  | nil => rfl
  | cons dsl ins ih => simp [insertions, ih, fragments]

theorem insertions_cons {op : Patch} {id : Int} (h : op.target? = some id) (ins : List Text)
    (later : List Patch) :
    insertions s a (ins.map .insert ++ op :: later) = (fragments s a ins, op :: later) := by
  induction ins with
  | nil =>
    cases op with
    | insert dsl => simp [target?] at h
    | _ => rfl
  | cons dsl ins ih => simp [insertions, ih, fragments]

theorem allInsertions_map (ins : List Text) :
    allInsertions s a (ins.map .insert) = fragments s a ins := by
  induction ins with
  | nil => rfl
  | cons dsl ins ih => simpa [allInsertions, fragments] using ih

/-- A segment without a token takes the insertions that are due, and leaves
every other operation. -/
theorem reconstruct_blank (hc : segment.isContent = true)
    (hr : rest = [] ∨ ∃ op later id, rest = op :: later ∧ op.target? = some id)
    (hid : segment.id ∉ targets rest) :
    reconstruct s a (segment :: ss) (ins.map .insert ++ rest)
      = fragments s a ins ++ segment.serialize ++ reconstruct s a ss rest := by
  rw [reconstruct, if_pos hc]
  rcases hr with rfl | ⟨op, later, id, rfl, ho⟩
  · rw [List.append_nil, insertions_nil]
  · have apart : op.target? ≠ some segment.id := by
      intro he
      rw [targets_cons he] at hid
      exact hid List.mem_cons_self
    rw [insertions_cons s a ho]
    exact if_neg apart

/-- A segment with a token takes the insertions that are due and the
operation that addresses it. -/
theorem reconstruct_addressed (hc : segment.isContent = true) {op : Patch}
    (ho : op.target? = some segment.id) :
    reconstruct s a (segment :: ss) (ins.map .insert ++ op :: later)
      = fragments s a ins ++ apply s a segment op ++ reconstruct s a ss later := by
  rw [reconstruct, if_pos hc, insertions_cons s a ho]
  exact if_pos ho

/-- **One step**: an editable segment takes off the insertions that are due
and its own operation if it has a token, and the rest again addresses the
tokens of the segments that follow. -/
theorem reconstruct_step {ops : List Patch} (hc : segment.isContent = true)
    (ht : targets ops = (Token.ofSegments (segment :: ss)).map Token.id)
    (hn : segment.id ∉ ss.map Segment.id) :
    ∃ (ins : List Text) (mine later : List Patch), ops = ins.map .insert ++ (mine ++ later)
      ∧ (∀ id ∈ targets mine, id = segment.id)
      ∧ targets later = (Token.ofSegments ss).map Token.id
      ∧ (∀ anchor, anchored anchor (mine ++ later) = anchored (some segment.id) later)
      ∧ reconstruct s a (segment :: ss) ops
          = fragments s a ins ++ outcome s a (mine ++ later) segment
            ++ reconstruct s a ss later := by
  obtain ⟨ins, rest, rfl, hr⟩ := exists_insertions ops
  rw [targets_insertions] at ht
  cases htok : Token.ofSegment? segment with
  | none =>
    rw [Token.ofSegments, List.filterMap_cons_none htok] at ht
    have hid : segment.id ∉ targets rest := fun h => hn (mem_ids_of_token (ht ▸ h))
    refine ⟨ins, [], rest, rfl, by simp [targets], ht, fun anchor => ?_, ?_⟩
    · rcases hr with rfl | ⟨op, later, id, rfl, ho⟩
      · rfl
      · rw [List.nil_append, anchored_cons ho, anchored_cons ho]
    · rw [reconstruct_blank s a hc hr hid, List.nil_append, outcome, onSegment?_eq_none hid]
  | some t =>
    rw [Token.ofSegments, List.filterMap_cons_some htok, List.map_cons,
      (id_of_ofSegment? htok).1] at ht
    rcases hr with rfl | ⟨op, later, id, rfl, ho⟩
    · cases ht
    · rw [targets_cons ho] at ht
      obtain ⟨rfl, hlater⟩ := List.cons.inj ht
      refine ⟨ins, [op], later, rfl, ?_, hlater, fun anchor => anchored_cons ho anchor later, ?_⟩
      · simp [targets, ho]
      · rw [reconstruct_addressed s a hc ho, List.singleton_append, outcome_cons s a ho]

end Steps

/-! ## 5. All segments -/

section Runs

variable (s : Settings) (a : Apparatus)

/-- What is placed depends on the anchors and the segments in question only. -/
theorem placed_congr {ahead ahead' : Option Int → Text} {out out' : Segment → Text}
    {ss : List Segment} {anchor : Option Int}
    (hahead : ∀ x ∈ anchor :: ss.map (fun segment => some segment.id), ahead x = ahead' x)
    (hout : ∀ segment ∈ ss, out segment = out' segment) :
    placed ahead out anchor ss = placed ahead' out' anchor ss := by
  induction ss generalizing anchor with
  | nil => exact hahead anchor List.mem_cons_self
  | cons segment ss ih =>
    have hout' : ∀ segment ∈ ss, out segment = out' segment :=
      fun other ho => hout other (List.mem_cons_of_mem _ ho)
    unfold placed
    split
    · rw [hahead anchor List.mem_cons_self, hout segment List.mem_cons_self,
        ih (fun x hx => hahead x (List.mem_cons_of_mem _ hx)) hout']
    · rw [ih (fun x hx => hahead x ?_) hout']
      rcases List.mem_cons.1 hx with rfl | hx
      · exact List.mem_cons_self
      · exact List.mem_cons_of_mem _ (List.mem_cons_of_mem _ hx)

/-- **Every operation in its place**, where the operations address the tokens
of the segments and the anchor is no number of these. -/
theorem reconstruct_placed {ss : List Segment} :
    ∀ {ops : List Patch} {anchor : Option Int},
      targets ops = (Token.ofSegments ss).map Token.id →
      (anchor :: ss.map (fun segment => some segment.id)).Nodup →
      reconstruct s a ss ops
        = placed (fun x => fragments s a (behind x (anchored anchor ops)))
            (outcome s a ops) anchor ss := by
  induction ss with
  | nil =>
    intro ops anchor ht _
    obtain ⟨ins, rest, rfl, hr⟩ := exists_insertions ops
    rw [targets_insertions] at ht
    rcases hr with rfl | ⟨op, later, id, rfl, ho⟩
    · rw [List.append_nil, reconstruct, allInsertions_map, placed, ← List.append_nil (ins.map _),
        anchored_insertions, anchored, List.append_nil, behind_same]
    · rw [targets_cons ho] at ht
      cases ht
  | cons segment ss ih =>
    intro ops anchor ht hn
    obtain ⟨hfirst, hrest⟩ := List.nodup_cons.1 hn
    have hid : segment.id ∉ ss.map Segment.id := by
      intro h
      obtain ⟨other, ho, he⟩ := List.mem_map.1 h
      exact (List.nodup_cons.1 hrest).1 (List.mem_map.2 ⟨other, ho, by rw [he]⟩)
    by_cases hc : segment.isContent = true
    · obtain ⟨ins, mine, later, rfl, hmine, hlater, hanchor, hstep⟩ :=
        reconstruct_step s a hc ht hid
      -- Behind the first anchor stand the insertions that are due, and no others.
      have due : behind anchor (anchored anchor (ins.map .insert ++ (mine ++ later))) = ins := by
        rw [anchored_insertions, hanchor, behind_append, behind_same, behind_eq_nil,
          List.append_nil]
        · exact fun h => hfirst (h ▸ List.mem_cons_self)
        · intro id hm h
          obtain ⟨other, ho, he⟩ := List.mem_map.1 (mem_ids_of_token (hlater ▸ hm))
          refine hfirst (List.mem_cons_of_mem _ (List.mem_map.2 ⟨other, ho, ?_⟩))
          rw [he, h]
      -- Behind the other anchors stands what the later operations insert.
      have others : ∀ x ∈ some segment.id :: ss.map (fun segment => some segment.id),
          behind x (anchored anchor (ins.map .insert ++ (mine ++ later)))
            = behind x (anchored (some segment.id) later) := by
        intro x hx
        rw [anchored_insertions, hanchor, behind_append, behind_other, List.nil_append]
        exact fun h => hfirst (h ▸ hx)
      have outside : ∀ other ∈ ss,
          outcome s a (ins.map .insert ++ (mine ++ later)) other = outcome s a later other := by
        intro other ho
        rw [← List.append_assoc, outcome_append]
        rw [targets_insertions]
        intro h
        exact hid (List.mem_map.2 ⟨other, ho, hmine _ h⟩)
      have here : outcome s a (ins.map .insert ++ (mine ++ later)) segment
          = outcome s a (mine ++ later) segment := by
        rw [outcome_append]
        rw [← List.append_nil (ins.map _), targets_insertions]
        exact List.not_mem_nil
      rw [hstep, ih hlater hrest, placed, if_pos hc, due, here]
      rw [placed_congr (fun x hx => congrArg (fragments s a) (others x hx)) outside]
    · have hnone : Token.ofSegment? segment = none := by
        cases htok : Token.ofSegment? segment with
        | none => rfl
        | some t => exact absurd (id_of_ofSegment? htok).2 hc
      rw [Token.ofSegments, List.filterMap_cons_none hnone] at ht
      have hn' : (anchor :: ss.map fun segment => some segment.id).Nodup :=
        List.nodup_cons.2 ⟨fun h => hfirst (List.mem_cons_of_mem _ h), (List.nodup_cons.1 hrest).2⟩
      rw [reconstruct, if_neg hc, placed, if_neg hc, ih ht hn']

end Runs

/-! ## 6. Everything kept, everything deleted -/

theorem targets_keeps (ts : List Token) : targets (keeps ts) = ts.map Token.id :=
  (script_keeps ts).targets_eq

theorem targets_append (ops later : List Patch) :
    targets (ops ++ later) = targets ops ++ targets later :=
  List.filterMap_append

/-- Segments with one operation for each token, and none between them, come out one after
the other, and leave the operations on the segments after them. -/
theorem reconstruct_map_append (s : Settings) (a : Apparatus) {on : Token → Patch}
    (hon : ∀ t, (on t).target? = some t.id) {done rest : List Segment} {ops : List Patch}
    (distinct : (done.map Segment.id).Nodup)
    (ho : ops = [] ∨ ∃ op later id, ops = op :: later ∧ op.target? = some id)
    (apart : ∀ segment ∈ done, segment.id ∉ targets ops) :
    reconstruct s a (done ++ rest) ((Token.ofSegments done).map on ++ ops)
      = (done.flatMap fun segment => (Token.ofSegment? segment).elim segment.serialize
          fun t => apply s a segment (on t)) ++ reconstruct s a rest ops := by
  have targets_map (ts : List Token) : targets (ts.map on) = ts.map Token.id := by
    rw [targets, List.filterMap_map, ← List.filterMap_eq_map]
    exact congrArg (List.filterMap · ts) (funext hon)
  induction done with
  | nil => rfl
  | cons segment done ih =>
    obtain ⟨hid, hdone⟩ := List.nodup_cons.1 distinct
    obtain ⟨here, others⟩ := List.forall_mem_cons.1 apart
    rw [List.cons_append, List.flatMap_cons, List.append_assoc, ← ih hdone others]
    cases htok : Token.ofSegment? segment with
    | none =>
      rw [Token.ofSegments, List.filterMap_cons_none htok]
      by_cases hc : segment.isContent = true
      · have hr : (Token.ofSegments done).map on ++ ops = []
            ∨ ∃ op later id, (Token.ofSegments done).map on ++ ops = op :: later
              ∧ op.target? = some id := by
          cases Token.ofSegments done with
          | nil => exact ho
          | cons t ts => exact .inr ⟨_, _, t.id, rfl, hon t⟩
        have unaddressed : segment.id ∉ targets ((Token.ofSegments done).map on ++ ops) := by
          rw [targets_append, targets_map, List.mem_append, not_or]
          exact ⟨fun h => hid (mem_ids_of_token h), here⟩
        exact @reconstruct_blank s a segment (done ++ rest) [] _ hc hr unaddressed
      · rw [reconstruct, if_neg hc]
        rfl
    | some t =>
      obtain ⟨ht, hc⟩ := id_of_ofSegment? htok
      rw [Token.ofSegments, List.filterMap_cons_some htok]
      exact @reconstruct_addressed s a segment (done ++ rest) [] _ hc (on t)
        ((hon t).trans (congrArg some ht))

/-- Segments whose tokens are kept come out as they stand, and leave the operations on
the segments after them. -/
theorem reconstruct_keeps_append (s : Settings) (a : Apparatus) {done rest : List Segment}
    {ops : List Patch} (distinct : (done.map Segment.id).Nodup)
    (ho : ops = [] ∨ ∃ op later id, ops = op :: later ∧ op.target? = some id)
    (apart : ∀ segment ∈ done, segment.id ∉ targets ops) :
    reconstruct s a (done ++ rest) (keeps (Token.ofSegments done) ++ ops)
      = done.flatMap Segment.serialize ++ reconstruct s a rest ops := by
  have stays (segment : Segment) : (Token.ofSegment? segment).elim segment.serialize
      (fun t => apply s a segment (.keep t.id)) = segment.serialize := by
    cases Token.ofSegment? segment <;> rfl
  rw [keeps, reconstruct_map_append s a (fun _ => rfl) distinct ho apart]
  simp only [stays]

/-- Where every token is deleted, the segments without one are left. -/
theorem reconstruct_deletions (s : Settings) (a : Apparatus) {ss : List Segment}
    (distinct : (ss.map Segment.id).Nodup) :
    reconstruct s a ss ((Token.ofSegments ss).map fun t => .delete t.id)
      = ss.flatMap fun segment =>
          if (Token.ofSegment? segment).isSome then [] else segment.serialize := by
  have whole := @reconstruct_map_append s a (fun t => .delete t.id) (fun _ => rfl) ss [] []
    distinct (.inl rfl) fun _ _ => nofun
  simp only [List.append_nil, reconstruct, allInsertions, List.flatMap_nil] at whole
  rw [whole]
  congr 1
  funext segment
  cases Token.ofSegment? segment <;> rfl

/-- Where every token is kept, the segments come out as they stand. -/
theorem reconstruct_keeps (s : Settings) (a : Apparatus) {ss : List Segment}
    (distinct : (ss.map Segment.id).Nodup) :
    reconstruct s a ss (keeps (Token.ofSegments ss)) = ss.flatMap Segment.serialize := by
  have whole := @reconstruct_keeps_append s a ss [] [] distinct (.inl rfl) fun _ _ => nofun
  simpa [reconstruct, allInsertions] using whole

/-- Text that differs from the projection in blanks around it only changes
nothing. -/
theorem compute_unedited {ss : List Segment} {edited : Text}
    (h : Text.trim edited = Text.trim (Segment.toText ss)) (limit : Int) :
    compute ss edited limit = keeps (Token.ofSegments ss) :=
  if_pos h.symm

/-- Text without tokens deletes all there are. -/
theorem compute_of_contents {ss : List Segment} {edited : Text}
    (h : Text.trim (Segment.toText ss) ≠ Text.trim edited) (hc : Token.contents edited = [])
    (limit : Int) : compute ss edited limit = (Token.ofSegments ss).map fun t => .delete t.id := by
  rw [compute, if_neg h, hc]
  exact (script_diff _ _ limit).eq_deletions

/-! ## 7. Computed operations -/

/-- Computed operations address every token once, in order, also where text
that differs in blanks only is not aligned at all. -/
theorem targets_compute (ss : List Segment) (edited : Text) (limit : Int) :
    targets (compute ss edited limit) = (Token.ofSegments ss).map Token.id := by
  unfold compute
  dsimp only
  split
  · exact (script_keeps _).targets_eq
  · exact (script_diff _ _ limit).targets_eq

/-- A number that is addressed finds its operation. -/
theorem isSome_onSegment? {ops : List Patch} {segment : Segment} :
    (onSegment? ops segment).isSome = true ↔ segment.id ∈ targets ops := by
  unfold onSegment? targets
  rw [List.find?_isSome, List.mem_filterMap]
  simp only [decide_eq_true_eq]

/-- Among segments with distinct numbers, the numbers of tokens tell which
segments have one. -/
theorem isSome_ofSegment? {ss : List Segment} (distinct : (ss.map Segment.id).Nodup)
    {segment : Segment} (h : segment ∈ ss) :
    (Token.ofSegment? segment).isSome = true
      ↔ segment.id ∈ (Token.ofSegments ss).map Token.id := by
  constructor
  · intro hs
    obtain ⟨t, ht⟩ := Option.isSome_iff_exists.1 hs
    exact List.mem_map.2 ⟨t, List.mem_filterMap.2 ⟨segment, h, ht⟩, (id_of_ofSegment? ht).1⟩
  · intro hm
    obtain ⟨t, ht, hid⟩ := List.mem_map.1 hm
    obtain ⟨other, ho, ht⟩ := List.mem_filterMap.1 ht
    have same : other = segment :=
      List.inj_on_of_nodup_map distinct ho h ((id_of_ofSegment? ht).1.symm.trans hid)
    rw [← same, ht]
    rfl

/-- **Every operation acts once, in its place.** Segments that cannot be
edited stay as they stand, each editable one becomes what its own operation
makes of it, and each insertion stands before the editable segment that
follows the last operation before it. The operations address the segments
with a token, each once and in order, and over all places the insertions come
once each, in order. -/
theorem reconstruct_compute (s : Settings) (a : Apparatus) (ss : List Segment) (edited : Text)
    (limit : Int) (distinct : (ss.map Segment.id).Nodup) :
    let ops := compute ss edited limit
    let editable := (ss.filter Segment.isContent).map Segment.id
    reconstruct s a ss ops
        = placed (fun anchor => fragments s a (insertedAt ops anchor)) (outcome s a ops) none ss
      ∧ targets ops = (Token.ofSegments ss).map Token.id
      ∧ (∀ segment ∈ ss,
          (onSegment? ops segment).isSome = (Token.ofSegment? segment).isSome)
      ∧ (none :: editable.map some).flatMap (insertedAt ops) = insertedTexts ops := by
  intro ops editable
  have ht : targets ops = (Token.ofSegments ss).map Token.id := targets_compute ss edited limit
  have fresh : ∀ ids : List Int, ids.Nodup → (none :: ids.map some).Nodup := fun ids hids =>
    List.nodup_cons.2 ⟨by simp, hids.map fun _ _ => Option.some.inj⟩
  refine ⟨?_, ht, fun segment h => ?_, ?_⟩
  · have numbers := fresh _ distinct
    rw [List.map_map] at numbers
    exact reconstruct_placed s a ht numbers
  · rw [Bool.eq_iff_iff, isSome_onSegment?, isSome_ofSegment? distinct h, ht]
  · have inOrder : (targets ops).Sublist editable := ht ▸ tokens_sublist ss
    have some_distinct : editable.Nodup := distinct.sublist (List.filter_sublist.map _)
    exact flatMap_behind inOrder (fresh _ some_distinct)

/-- A blank word between a word and a line break, with numbers out of
order. -/
theorem reconstruct_compute_around_blank :
    let ss : List Segment :=
      [.structural 0 "<p>", .word 4 "<w>a</w>" "a" [] false, .word 2 "<w/>" " " [] false,
        .milestone .line 3 [("n", "2")], .structural 5 "</p>"]
    let ops := compute ss "b c //2" 1000
    (ss.map Segment.id).Nodup
      ∧ reconstruct .plain .empty ss ops
          = placed (fun anchor => fragments .plain .empty (insertedAt ops anchor))
              (outcome .plain .empty ops) none ss
      ∧ targets ops = [4, 3]
      ∧ [none, some 4, some 2, some 3].flatMap (insertedAt ops) = insertedTexts ops := by
  intro ss ops
  have distinct : (ss.map Segment.id).Nodup := by decide
  obtain ⟨hplaced, htargets, -, hinserted⟩ :=
    reconstruct_compute .plain .empty ss "b c //2" 1000 distinct
  have tokens : (Token.ofSegments ss).map Token.id = [4, 3] := by decide
  exact ⟨distinct, hplaced, htargets.trans tokens, hinserted⟩

end Transcription.Patch
