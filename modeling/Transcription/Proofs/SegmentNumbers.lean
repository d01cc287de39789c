/-
Transcription.Proofs.SegmentNumbers — the numbers of segments are their places.

A body can be cut in one walk with a counter (`cut`): a number is taken whenever a segment is
made, before the content of an element that is kept as its tags is looked at, and again behind
it. An element that may be one segment is read first. Reading takes no number, so an element
whose reading comes to nothing is kept as its tags with the numbers that follow on.

The walk and the segments that are numbered when all have been found are the same
(`run_cut`), from any first number on. Every segment has the number that was taken for it
(`TakesNumber`), so the numbers go up by one from segment to segment (`ids_numberFrom`).

**`segments_numbered`**: the segments of a body are numbered 0, 1, 2 and so on, the counter ends
at how many there are, and a number is the place of its segment in the list.
-/
import Transcription.Proofs.Segments

namespace Transcription.Import

open Xml (Tag Element)

/-! ## 1. The walk with a counter -/

/-- What is done with the next free number at hand. -/
abbrev Counting := StateM Int

/-- Take the next number. -/
def take : Counting Int :=
  modifyGet fun next => (next, next + 1)

/-- Number some segments as they come. -/
def number : List Draft → Counting (List Segment)
  | [] => return []
  | d :: ds => return d (← take) :: (← number ds)

mutual

/-- Cut a node, with a number for each segment when it is made. -/
def cut : Xml.Node → Counting (List Segment)
  | .text t => number ((runs t).map ofRun)
  | .comment t => return [.structural (← take) (Xml.Node.write (.comment t))]
  | .reference name =>
      return [.word (← take) (Markup.reference name) (':' :: name ++ [':']) [] false]
  | .instruction => return []
  | .element tag ns => do
      match elementDraft? tag ns with
      | some draft => return [draft (← take)]
      | none =>
          if ns.isEmpty then return [.structural (← take) tag.empty]
          else
            let first ← take
            let inner ← cutAll ns
            let last ← take
            return .structural first tag.opening :: inner ++ [.structural last tag.closing]

/-- Cut some nodes, one after the other. -/
def cutAll : List Xml.Node → Counting (List Segment)
  | [] => return []
  | n :: ns => return (← cut n) ++ (← cutAll ns)

end

/-! ## 2. The walk and the numbered list -/

section Runs

variable {α β : Type}

theorem run_take_bind (f : Int → Counting α) (next : Int) :
    (take >>= f).run next = (f next).run (next + 1) := rfl

theorem run_return (a : α) (next : Int) : (pure a : Counting α).run next = (a, next) := rfl

theorem run_bind {m : Counting α} {next after : Int} {a : α} (h : m.run next = (a, after))
    (f : α → Counting β) : (m >>= f).run next = (f a).run after := by
  show (f (m.run next).1).run (m.run next).2 = _
  rw [h]

end Runs

theorem length_numberFrom (first : Int) (ds : List Draft) :
    (numberFrom first ds).length = ds.length := by
  induction ds generalizing first with
  | nil => rfl
  | cons d ds ih => simp [numberFrom, ih]

theorem numberFrom_append (first : Int) (ds es : List Draft) :
    numberFrom first (ds ++ es) = numberFrom first ds ++ numberFrom (first + ds.length) es := by
  induction ds generalizing first with
  | nil => simp [numberFrom]
  | cons d ds ih =>
    have shift : first + 1 + (ds.length : Int) = first + ((ds.length + 1 : Nat) : Int) := by omega
    simp [numberFrom, ih, shift]

theorem run_number (ds : List Draft) (next : Int) :
    (number ds).run next = (numberFrom next ds, next + ds.length) := by
  induction ds generalizing next with
  | nil => rw [number, run_return]; simp [numberFrom]
  | cons d ds ih =>
    rw [number, run_take_bind, run_bind (ih (next + 1)), run_return]
    simp [numberFrom, Int.add_assoc, Int.add_comm 1]

mutual

/-- **The walk is the numbered list**, and leaves the counter behind the last number. -/
theorem run_cut : ∀ (n : Xml.Node) (next : Int),
    (cut n).run next = (numberFrom next (drafts n), next + (drafts n).length)
  | .text t, next => by rw [cut, drafts, run_number]
  | .comment t, next => by rw [cut, drafts, run_take_bind, run_return]; rfl
  | .reference name, next => by rw [cut, drafts, run_take_bind, run_return]; rfl
  | .instruction, next => by rw [cut, drafts, run_return]; simp [numberFrom]
  | .element tag ns, next => by
    rw [cut, drafts]
    cases elementDraft? tag ns with
    | some draft => exact run_take_bind ..
    | none =>
      dsimp only
      split
      · exact run_take_bind ..
      · -- The second tag has the number that the content has left.
        rw [run_take_bind, run_bind (run_cutAll ns (next + 1)), run_take_bind, run_return]
        simp [numberFrom, numberFrom_append, Int.add_assoc, Int.add_comm 1]

theorem run_cutAll : ∀ (ns : List Xml.Node) (next : Int),
    (cutAll ns).run next = (numberFrom next (draftsAll ns), next + (draftsAll ns).length)
  | [], next => by rw [cutAll, draftsAll, run_return]; simp [numberFrom]
  | n :: ns, next => by
    rw [cutAll, draftsAll, run_bind (run_cut n next), run_bind (run_cutAll ns _), run_return]
    simp [numberFrom_append, Int.add_assoc]

end

/-! ## 3. The numbers -/

/-- Numbers go up by one from segment to segment. -/
theorem ids_numberFrom {ds : List Draft} (h : ∀ d ∈ ds, TakesNumber d) (first : Int) :
    (numberFrom first ds).map Segment.id
      = (List.range ds.length).map fun k : Nat => first + (k : Int) := by
  induction ds generalizing first with
  | nil => rfl
  | cons d ds ih =>
    obtain ⟨own, rest⟩ := List.forall_mem_cons.1 h
    have shift (k : Nat) : first + 1 + (k : Int) = first + ((k + 1 : Nat) : Int) := by omega
    simp [numberFrom, own first, ih rest, List.range_succ_eq_map, Function.comp_def, shift]

/-- **Segments are numbered by their places.** The segments of a body are those of the walk with
a counter that begins at 0 and ends at how many there are. Their numbers are 0, 1, 2 and so on
without a gap, so they ascend and are distinct, and the number of a segment is its place. -/
theorem segments_numbered (body : Element) :
    let found := segments body
    (cutAll body.children).run 0 = (found, (found.length : Int))
      ∧ found.map Segment.id = (List.range found.length).map Int.ofNat
      ∧ (found.map Segment.id).Pairwise (· < ·)
      ∧ ∀ s ∈ found, 0 ≤ s.id ∧ found[s.id.toNat]? = some s := by
  intro found
  have ids : found.map Segment.id = (List.range found.length).map Int.ofNat := by
    show _ = (List.range (numberFrom 0 _).length).map Int.ofNat
    rw [length_numberFrom]
    exact (ids_numberFrom (takesNumber_draftsAll body.children) 0).trans
      (List.map_congr_left fun k _ => Int.zero_add k)
  refine ⟨?_, ids, ?_, fun s hs => ?_⟩
  · simp [run_cutAll, found, segments, length_numberFrom]
  · rw [ids, List.pairwise_map]
    exact List.pairwise_lt_range.imp fun lt => Int.ofNat_lt.2 lt
  · obtain ⟨k, hk, rfl⟩ := List.getElem_of_mem hs
    have place : found[k].id = k := by
      have := congrArg (·[k]?) ids
      simpa [hk] using this
    simp [place, hk]

end Transcription.Import
