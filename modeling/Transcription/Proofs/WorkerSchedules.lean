/-
Transcription.Proofs.WorkerSchedules — whatever the order of its steps, the service
does what a server does that serves each request as it comes.

At most one worker lives, and it is the one that the service knows; its item and the
queue hold the requests that are pending, with the sign to end behind them once the
client waits (`Phase`). So the system amounts to a server that has already served what is pending
(`System.view`). Each step keeps the phase and is to this server what the event is
(`sound_step`): the steps of a worker are nothing to it, as they only do what was
counted as done. Files matter to this only at the requests that are pending, so they may
change where no pending request reads them (`Undisturbed`).

Steps of the worker alone come to an end with everything served (`run_of_isWork`).
-/
import Mathlib.Data.List.Range
import Transcription.Validation.Interleaving

namespace Transcription.Validation

variable {σ : Type} {e : Engine σ} {files : Files} {path : Text} {content : Option Text}

/-! ## 1. Serving several requests -/

namespace Service

variable {s : Service σ} {cache : Cache σ} {r : Request}

/-- The outcomes of requests served one after the other, with their tickets, and the
schemas kept afterwards. -/
def serveAll (e : Engine σ) (files : Files) :
    Cache σ → List (Nat × Request) → List (Nat × Outcome) × Cache σ
  | cache, [] => ([], cache)
  | cache, (ticket, r) :: rest =>
      let (outcome, cache) := serve e files cache r
      let (outcomes, cache) := serveAll e files cache rest
      ((ticket, outcome) :: outcomes, cache)

/-- Serving goes on with the schemas that the first requests left. -/
theorem serveAll_append (cache : Cache σ) (ps qs : List (Nat × Request)) :
    serveAll e files cache (ps ++ qs)
      = ((serveAll e files cache ps).1 ++ (serveAll e files (serveAll e files cache ps).2 qs).1,
        (serveAll e files (serveAll e files cache ps).2 qs).2) := by
  induction ps generalizing cache with
  | nil => rfl
  | cons p ps ih => simp only [List.cons_append, serveAll, ih]

/-- Every request gets one outcome, under its ticket, in the order of the queue. -/
theorem tickets_serveAll (e : Engine σ) (files : Files) (cache : Cache σ)
    (ps : List (Nat × Request)) :
    (serveAll e files cache ps).1.map Prod.fst = ps.map Prod.fst := by
  induction ps generalizing cache with
  | nil => rfl
  | cons p ps ih => simp only [serveAll, List.map_cons, ih]

/-- A change of a file is nothing to a request that does not read it. -/
theorem serve_edited (other : r.source ≠ .file path) :
    serve e (edited files path content) cache r = serve e files cache r := by
  rw [serve, serve, schema?, schema?]
  cases source : r.source with
  | inline text => rfl
  | file p =>
    have unlike : p ≠ path := fun same => other (same ▸ source)
    have same : edited files path content p = files p := if_neg unlike
    simp only [same]

/-- A change of a file is nothing to requests that do not read it. -/
theorem serveAll_edited {ps : List (Nat × Request)} (others : ∀ p ∈ ps, p.2.source ≠ .file path) :
    serveAll e (edited files path content) cache ps = serveAll e files cache ps := by
  induction ps generalizing cache with
  | nil => rfl
  | cons p ps ih =>
    obtain ⟨other, others⟩ := List.forall_mem_cons.1 others
    simp only [serveAll, serve_edited other, ih others]

/-- With nothing queued, to stop is to accept no more. -/
theorem stop_of_empty (empty : s.queue = []) : s.stop e files = { s with alive := false } := by
  obtain ⟨alive, queue, cache, outcomes, nextTicket⟩ := s
  subst empty
  cases alive <;> rfl

/-- A request to a server with an empty queue is served at once. -/
theorem request_of_empty (lives : s.alive = true) (empty : s.queue = [])
    (fresh : s.nextTicket ∉ s.outcomes.map Prod.fst) :
    s.request e files r = some ((serve e files s.cache r).1,
      { s with
        cache := (serve e files s.cache r).2
        outcomes := s.outcomes ++ [(s.nextTicket, (serve e files s.cache r).1)]
        nextTicket := s.nextTicket + 1 }) := by
  obtain ⟨alive, queue, cache, outcomes, nextTicket⟩ := s
  subst lives empty
  have found (outcome : Outcome) :
      List.lookup nextTicket (outcomes ++ [(nextTicket, outcome)]) = some outcome := by
    have missing : List.lookup nextTicket outcomes = none :=
      List.lookup_eq_none_iff.2 fun p hp => bne_iff_ne.2 fun same =>
        fresh (List.mem_map.2 ⟨p, hp, same.symm⟩)
    rw [List.lookup_append, missing, Option.none_or, List.lookup_cons_self]
  show (List.lookup nextTicket (outcomes ++ [(nextTicket, (serve e files cache r).1)])).bind _ = _
  rw [found]
  rfl

end Service

/-! ## 2. What is pending -/

/-- The request of an item, with its ticket. -/
def Item.request? : Item → Option (Nat × Request)
  | .request ticket r => some (ticket, r)
  | .stop => none

/-- The item that a worker holds. -/
def Worker.held : Worker → List Item
  | .holding item => [item]
  | _ => []

/-- What the call of the client has put behind the requests. -/
def Client.sign : Client → List Item
  | .joining => [.stop]
  | _ => []

/-- Whether an event is a step of a worker. -/
def Event.isWork : Event → Bool
  | .take _ | .serve _ => true
  | _ => false

/-- The requests that are queued in the course of some events. -/
def Event.accepted : List Event → List Request :=
  List.filterMap fun
    | .send r => some r
    | _ => none

namespace System

variable {s s' : System σ} {before : List Worker} {w v : Worker} {item : Item}
  {requests : List Item} {i : Nat} {r : Request}

/-- The items that have not been served: those that workers hold, and the queue. -/
def items (s : System σ) : List Item :=
  s.workers.flatMap Worker.held ++ s.queue

/-- The requests that have been accepted and not served. -/
def pending (s : System σ) : List (Nat × Request) :=
  s.items.filterMap Item.request?

/-- Whether requests are accepted: a worker is known, and no stop is under way. -/
def accepting (s : System σ) : Bool :=
  s.handle.isSome && decide (s.client ≠ .joining)

/-- The server that the system amounts to: what is pending counts as served. -/
def view (e : Engine σ) (s : System σ) : Server σ :=
  let (outcomes, cache) := Service.serveAll e s.files s.cache s.pending
  { service :=
      { alive := s.accepting
        queue := []
        cache := cache
        outcomes := s.outcomes ++ outcomes
        nextTicket := s.nextTicket }
    files := s.files
    refused := s.refused }

@[simp] theorem view_alive (e : Engine σ) (s : System σ) :
    (s.view e).service.alive = s.accepting :=
  rfl

/-! ## 3. Phases -/

/-- Workers that have ended hold nothing. -/
theorem held_of_ended (ended : ∀ w ∈ before, w = .ended) : before.flatMap Worker.held = [] :=
  List.flatMap_eq_nil_iff.2 fun w hw => by
    rw [ended w hw]
    rfl

/-- Of several workers only the last one can live. -/
theorem last_of_lives (ended : ∀ w ∈ before, w = .ended) (h : (before ++ [w])[i]? = some v)
    (lives : v.lives = true) : i = before.length ∧ v = w := by
  rw [List.getElem?_append] at h
  split at h
  case isTrue =>
    have same : v = .ended := ended v (List.mem_of_getElem? h)
    rw [same] at lives
    cases lives
  case isFalse beyond =>
    obtain ⟨inside, rfl⟩ := List.getElem?_eq_some_iff.1 h
    rw [List.length_singleton] at inside
    exact ⟨by omega, by simp⟩

/-- No worker lives, and the client is in no call that needs one. -/
structure Resting (s : System σ) : Prop where
  forgotten : s.handle = none
  ended : ∀ w ∈ s.workers, w = .ended
  empty : s.queue = []
  client : s.client = .free ∨ s.client = .starting

/-- The worker that was started last lives; it and the queue hold some requests, with
the sign to end behind them once the client waits. -/
structure Working (s : System σ) (before : List Worker) (w : Worker) (requests : List Item) :
    Prop where
  known : s.handle = some before.length
  workers : s.workers = before ++ [w]
  ended : ∀ w ∈ before, w = .ended
  lives : w.lives = true
  real : .stop ∉ requests
  items : w.held ++ s.queue = requests ++ s.client.sign
  client : s.client ≠ .starting

/-- The worker has ended, and the client is to find that out. -/
structure Finished (s : System σ) (before : List Worker) : Prop where
  known : s.handle = some before.length
  workers : s.workers = before ++ [.ended]
  ended : ∀ w ∈ before, w = .ended
  empty : s.queue = []
  client : s.client = .joining

/-- The phases that a system is in. -/
inductive Phase (s : System σ) : Prop
  | resting (h : Resting s)
  | working (before : List Worker) (w : Worker) (requests : List Item)
      (h : Working s before w requests)
  | finished (before : List Worker) (h : Finished s before)

/-- The worker that the service knows is the last one started. -/
theorem running_snoc (known : s.handle = some before.length) (workers : s.workers = before ++ [w]) :
    s.running = w.lives := by
  rw [running, known, workers, Option.bind_some, List.getElem?_concat_length, Option.any_some]

theorem Resting.items (h : Resting s) : s.items = [] := by
  rw [System.items, held_of_ended h.ended, h.empty]
  rfl

theorem Resting.running (h : Resting s) : s.running = false := by
  rw [System.running, h.forgotten]
  rfl

/-- A system at rest has nothing left to serve. -/
theorem Resting.pending (h : Resting s) : s.pending = [] := by
  rw [System.pending, h.items]
  rfl

theorem Finished.pending (h : Finished s before) : s.pending = [] := by
  rw [System.pending, System.items, h.workers, List.flatMap_append, held_of_ended h.ended, h.empty]
  rfl

/-- The sign to end is no request. -/
theorem filterMap_sign (client : Client) : client.sign.filterMap Item.request? = [] := by
  cases client <;> rfl

theorem Working.items_eq (h : Working s before w requests) :
    s.items = requests ++ s.client.sign := by
  rw [System.items, h.workers, List.flatMap_append, held_of_ended h.ended, List.nil_append,
    List.flatMap_singleton, h.items]

/-- What the living worker and the queue hold is all that is pending. -/
theorem Working.pending (h : Working s before w requests) :
    s.pending = requests.filterMap Item.request? := by
  rw [System.pending, h.items_eq, List.filterMap_append, filterMap_sign, List.append_nil]

/-- A worker that holds the sign to end is the last thing to happen. -/
theorem Working.of_stop (h : Working s before (.holding .stop) requests) :
    requests = [] ∧ s.queue = [] ∧ s.client = .joining := by
  have items := h.items
  cases requests with
  | cons item requests => exact absurd (List.cons.inj items).1 (List.ne_of_not_mem_cons h.real)
  | nil =>
    cases client : s.client with
    | joining =>
      rw [client] at items
      exact ⟨rfl, (List.cons.inj items).2, rfl⟩
    | _ =>
      rw [client] at items
      cases items

/-- A worker that holds a request holds the first of them. -/
theorem Working.of_request {ticket : Nat}
    (h : Working s before (.holding (.request ticket r)) requests) :
    ∃ rest, requests = .request ticket r :: rest ∧ s.queue = rest ++ s.client.sign := by
  have items := h.items
  cases requests with
  | cons item rest =>
    obtain ⟨rfl, queue⟩ := List.cons.inj items
    exact ⟨rest, rfl, queue⟩
  | nil =>
    cases client : s.client <;> rw [client] at items <;> cases items

/-- A worker that lives is the one that was started last. -/
theorem Phase.working_of_lives (h : Phase s) (there : s.workers[i]? = some w)
    (lives : w.lives = true) :
    ∃ before requests, i = before.length ∧ Working s before w requests := by
  cases h with
  | resting rest =>
    rw [rest.ended w (List.mem_of_getElem? there)] at lives
    cases lives
  | working before last requests work =>
    rw [work.workers] at there
    obtain ⟨place, rfl⟩ := last_of_lives work.ended there lives
    exact ⟨before, requests, place, work⟩
  | finished before past =>
    rw [past.workers] at there
    rw [(last_of_lives past.ended there lives).2] at lives
    cases lives

/-- A system in one of its phases, with one outcome for each ticket that was given out
and whose request is not pending. -/
structure Sound (s : System σ) : Prop where
  phase : Phase s
  tickets : s.outcomes.map Prod.fst ++ s.pending.map Prod.fst = List.range s.nextTicket

/-- Without a living worker, and with no stop to wait for, the system is at rest. -/
theorem Sound.resting (h : Sound s) (dead : s.running = false) (client : s.client ≠ .joining) :
    Resting s := by
  cases h.phase with
  | resting h => exact h
  | working before w requests h =>
    rw [running_snoc h.known h.workers, h.lives] at dead
    cases dead
  | finished before h => exact absurd h.client client

/-- With a living worker the system is at work. -/
theorem Sound.working (h : Sound s) (lives : s.running = true) :
    ∃ before w requests, Working s before w requests := by
  cases h.phase with
  | resting h =>
    rw [h.running] at lives
    cases lives
  | working before w requests h => exact ⟨before, w, requests, h⟩
  | finished before h =>
    rw [running_snoc h.known h.workers] at lives
    cases lives

/-- Requests are accepted while a worker lives, unless a stop is under way. -/
theorem Sound.running_eq (h : Sound s) (client : s.client ≠ .joining) :
    s.running = s.accepting := by
  cases h.phase with
  | resting rest => rw [rest.running, accepting, rest.forgotten, Option.isSome_none, Bool.false_and]
  | working before w requests work =>
    rw [running_snoc work.known work.workers, work.lives, accepting, work.known, Option.isSome_some,
      decide_eq_true client, Bool.true_and]
  | finished before past => exact absurd past.client client

/-- A client that is about to queue a request finds the worker alive. -/
theorem Sound.working_of_submitting (h : Sound s) (submitting : s.client = .submitting r) :
    ∃ before w requests, Working s before w requests := by
  cases h.phase with
  | resting h => rcases h.client with client | client <;> simp [client] at submitting
  | working before w requests h => exact ⟨before, w, requests, h⟩
  | finished before h => simp [h.client] at submitting

/-! ## 4. Steps -/

/-- A step of a call that neither opens nor closes the service is nothing to the server. -/
theorem view_call {client : Client} {handle : Option Nat}
    (same : { s with client := client, handle := handle }.accepting = s.accepting) :
    { s with client := client, handle := handle }.view e = s.view e := by
  rw [view, same]
  rfl

/-- To start begins with a look at the worker, which is nothing to the server. -/
theorem sound_start (h : Sound s) (hs : step? e s .start = some s') :
    Sound s' ∧ s'.view e = s.view e := by
  rw [step?, Option.ite_none_right_eq_some] at hs
  obtain ⟨free, hs⟩ := hs
  cases lives : s.running with
  | true =>
    rw [lives, if_pos rfl] at hs
    cases hs
    exact ⟨h, rfl⟩
  | false =>
    have rest := h.resting lives (by simp [free])
    rw [lives, if_neg (by decide)] at hs
    cases hs
    exact ⟨⟨.resting { rest with client := .inr rfl }, h.tickets⟩,
      view_call (by simp [accepting, rest.forgotten])⟩

/-- Only where no worker lives is one started, and from then on requests are accepted. -/
theorem sound_spawn (h : Sound s) (hs : step? e s .spawn = some s') :
    Sound s' ∧ s'.view e = (s.view e).respond e .spawn := by
  rw [step?, Option.ite_none_right_eq_some] at hs
  obtain ⟨starting, hs⟩ := hs
  cases hs
  have rest : Resting s := by
    cases h.phase with
    | resting h => exact h
    | working before w requests h => exact absurd starting h.client
    | finished before h =>
      rw [h.client] at starting
      cases starting
  have work : Working { s with
      client := .free, handle := some s.workers.length, workers := s.workers ++ [.waiting] }
      s.workers .waiting [] :=
    { known := rfl, workers := rfl, ended := rest.ended, lives := rfl, real := List.not_mem_nil
      items := rest.empty, client := by simp }
  refine ⟨⟨.working _ _ _ work, ?_⟩, ?_⟩
  · rw [work.pending, List.filterMap_nil, ← rest.pending]
    exact h.tickets
  · rw [view, work.pending, List.filterMap_nil, view, rest.pending]
    rfl

/-- A request is refused, or the client goes on to queue it. -/
theorem sound_ask (h : Sound s) (hs : step? e s (.ask r) = some s') :
    Sound s' ∧ s'.view e = (s.view e).respond e (.ask r) := by
  rw [step?, Option.ite_none_right_eq_some] at hs
  obtain ⟨free, hs⟩ := hs
  cases lives : s.running with
  | true =>
    rw [lives, if_pos rfl] at hs
    cases hs
    obtain ⟨before, w, requests, work⟩ := h.working lives
    have open_ : s.accepting = true := by simp [accepting, work.known, free]
    have items : w.held ++ s.queue = requests ++ (Client.submitting r).sign := by
      rw [work.items, free]
      rfl
    refine ⟨⟨.working before w requests { work with items := items, client := by simp }, h.tickets⟩,
      ?_⟩
    · rw [Server.respond, view_alive, if_pos open_]
      exact view_call (by simp [accepting, free])
  | false =>
    have rest := h.resting lives (by simp [free])
    have closed : s.accepting = false := by simp [accepting, rest.forgotten]
    rw [lives, if_neg (by decide)] at hs
    cases hs
    refine ⟨⟨.resting { rest with }, h.tickets⟩, ?_⟩
    rw [Server.respond, view_alive, if_neg (by simp [closed])]
    rfl

/-- Counting what is pending as served, tickets have been used up to the next one. -/
theorem tickets_view (h : Sound s) :
    (s.view e).service.outcomes.map Prod.fst = List.range s.nextTicket := by
  rw [← h.tickets, ← Service.tickets_serveAll e s.files s.cache s.pending,
    ← List.map_append]
  rfl

/-- The server serves at once what the system puts in its queue. -/
theorem respond_send (h : Sound s) (lives : s.accepting = true) :
    (s.view e).respond e (.send r) =
      let (outcome, cache) := Service.serve e s.files (s.view e).service.cache r
      { s.view e with
        service := { (s.view e).service with
          cache := cache
          outcomes := (s.view e).service.outcomes ++ [(s.nextTicket, outcome)]
          nextTicket := s.nextTicket + 1 } } := by
  have fresh : s.nextTicket ∉ (s.view e).service.outcomes.map Prod.fst := by
    rw [tickets_view h, List.mem_range]
    exact Nat.lt_irrefl _
  rw [Server.respond, Service.request_of_empty lives rfl fresh]
  rfl

/-- A queued request counts as served from here on. -/
theorem sound_send (h : Sound s) (hs : step? e s (.send r) = some s') :
    Sound s' ∧ s'.view e = (s.view e).respond e (.send r) := by
  rw [step?, Option.ite_none_right_eq_some] at hs
  obtain ⟨submitting, hs⟩ := hs
  cases hs
  obtain ⟨before, w, requests, work⟩ := h.working_of_submitting submitting
  have lives : s.accepting = true := by simp [accepting, work.known, submitting]
  have work' : Working { s with
      client := .free, queue := s.queue ++ [.request s.nextTicket r]
      nextTicket := s.nextTicket + 1 }
      before w (requests ++ [.request s.nextTicket r]) :=
    { work with
      real := by simp [work.real]
      items := by simp [← List.append_assoc, work.items, submitting, Client.sign]
      client := by simp }
  -- The server serves the request now: last of all that is pending.
  have pending' := work'.pending
  rw [List.filterMap_append, ← work.pending] at pending'
  refine ⟨⟨.working before w _ work', ?_⟩, ?_⟩
  · rw [pending', List.map_append, ← List.append_assoc, h.tickets, List.range_succ]
    rfl
  · rw [respond_send h lives, view, pending', Service.serveAll_append]
    simp [view, accepting, Service.serveAll, Item.request?, work.known, submitting]

theorem respond_stop :
    (s.view e).respond e .stop
      = { s.view e with service := { (s.view e).service with alive := false } } := by
  rw [Server.respond, Service.stop_of_empty rfl]

/-- To stop puts the sign behind all requests, and the server accepts no more. -/
theorem sound_stop (h : Sound s) (hs : step? e s .stop = some s') :
    Sound s' ∧ s'.view e = (s.view e).respond e .stop := by
  rw [step?, Option.ite_none_right_eq_some] at hs
  obtain ⟨free, hs⟩ := hs
  cases h.phase with
  | resting rest =>
    rw [rest.forgotten, Option.isNone_none, if_pos rfl] at hs
    cases hs
    have closed : s.accepting = false := by simp [accepting, rest.forgotten]
    refine ⟨h, ?_⟩
    rw [respond_stop]
    simp [view, closed]
  | working before w requests work =>
    rw [if_neg (by simp [work.known])] at hs
    cases hs
    have work' : Working { s with client := .joining, queue := s.queue ++ [.stop] }
        before w requests :=
      { work with
        items := by simp [← List.append_assoc, work.items, free, Client.sign]
        client := by simp }
    have pending' := work'.pending.trans work.pending.symm
    refine ⟨⟨.working before w requests work', by rw [pending']; exact h.tickets⟩, ?_⟩
    rw [respond_stop, view, pending']
    simp [view, accepting]
  | finished before past =>
    rw [past.client] at free
    cases free

/-- The client has found that the worker ended, when all was served. -/
theorem sound_join (h : Sound s) (hs : step? e s .join = some s') :
    Sound s' ∧ s'.view e = s.view e := by
  rw [step?, Option.ite_none_right_eq_some] at hs
  obtain ⟨⟨joining, dead⟩, hs⟩ := hs
  cases hs
  cases h.phase with
  | resting rest => rcases rest.client with client | client <;> simp [client] at joining
  | working before w requests work =>
    rw [running_snoc work.known work.workers, work.lives] at dead
    cases dead
  | finished before past =>
    have ended : ∀ w ∈ s.workers, w = .ended := by
      rw [past.workers, List.forall_mem_append]
      exact ⟨past.ended, by simp⟩
    have rest : Resting { s with client := .free, handle := none } :=
      ⟨rfl, ended, past.empty, .inl rfl⟩
    exact ⟨⟨.resting rest, h.tickets⟩, view_call (by simp [accepting, joining])⟩

/-- To take an item from the queue moves it, no more. -/
theorem sound_take (h : Sound s) (hs : step? e s (.take i) = some s') :
    Sound s' ∧ s'.view e = s.view e := by
  obtain ⟨item, queue, there, front, rfl⟩ := take_cases hs
  obtain ⟨before, requests, rfl, work⟩ := h.phase.working_of_lives there rfl
  have work' : Working { s with
      workers := s.workers.set before.length (.holding item), queue := queue }
      before (.holding item) requests :=
    { work with
      workers := by simp [work.workers]
      lives := rfl
      items := by simp [← work.items, front, Worker.held] }
  have pending' := work'.pending.trans work.pending.symm
  refine ⟨⟨.working before _ requests work', by rw [pending']; exact h.tickets⟩, ?_⟩
  rw [view, pending']
  rfl

/-- To serve an item does what was counted as done. -/
theorem sound_serve (h : Sound s) (hs : step? e s (.serve i) = some s') :
    Sound s' ∧ s'.view e = s.view e := by
  rcases serve_cases hs with ⟨there, rfl⟩ | ⟨ticket, r, there, rfl⟩
  case inl =>
    -- Nothing was queued behind the sign, so nothing is left in the queue.
    obtain ⟨before, requests, rfl, work⟩ := h.phase.working_of_lives there rfl
    obtain ⟨rfl, empty, joining⟩ := work.of_stop
    have past : Finished { s with workers := s.workers.set before.length .ended } before :=
      ⟨work.known, by simp [work.workers], work.ended, empty, joining⟩
    have pending' := past.pending.trans work.pending.symm
    refine ⟨⟨.finished before past, by rw [pending']; exact h.tickets⟩, ?_⟩
    rw [view, pending']
    rfl
  case inr =>
    obtain ⟨before, requests, rfl, work⟩ := h.phase.working_of_lives there rfl
    obtain ⟨rest, rfl, queue⟩ := work.of_request
    have work' : Working (s.served e before.length ticket r) before .waiting rest :=
      { work with
        workers := by simp [served, work.workers]
        lives := rfl
        real := List.not_mem_of_not_mem_cons work.real
        items := queue }
    -- The request moves from the pending ones to the outcomes, which is all one to the server.
    have pending : s.pending = (ticket, r) :: rest.filterMap Item.request? := work.pending
    refine ⟨⟨.working before _ rest work', ?_⟩, ?_⟩
    · have tickets := h.tickets
      rw [pending] at tickets
      rw [work'.pending]
      show (s.outcomes ++ [(ticket, _)]).map Prod.fst ++ _ = _
      rw [List.map_append, List.append_assoc]
      exact tickets
    · rw [view, work'.pending, view, pending, Service.serveAll]
      simp only [served, List.append_assoc, List.singleton_append]
      rfl

/-- A file may change that no pending request reads. -/
theorem sound_edit (h : Sound s) (others : ∀ p ∈ s.pending, p.2.source ≠ .file path)
    (hs : step? e s (.edit path content) = some s') :
    Sound s' ∧ s'.view e = (s.view e).respond e (.edit path content) := by
  cases hs
  refine ⟨⟨?_, h.tickets⟩, ?_⟩
  · cases h.phase with
    | resting rest => exact .resting { rest with }
    | working before w requests work => exact .working before w requests { work with }
    | finished before past => exact .finished before { past with }
  · have same : { s with files := edited s.files path content }.pending = s.pending := rfl
    rw [view, same, Service.serveAll_edited others]
    rfl

/-! ## 5. Runs -/

/-- An event changes no file that a pending request reads. -/
def Spares (s : System σ) : Event → Prop
  | .edit path _ => ∀ p ∈ s.pending, p.2.source ≠ .file path
  | _ => True

/-- No file is changed between the time when a request that reads it is queued and the
time when it is served. -/
def Undisturbed (e : Engine σ) : System σ → List Event → Prop
  | _, [] => True
  | s, event :: events => s.Spares event ∧ ∀ s' ∈ step? e s event, Undisturbed e s' events

instance (s : System σ) : (event : Event) → Decidable (s.Spares event)
  | .edit path _ => inferInstanceAs (Decidable (∀ p ∈ s.pending, p.2.source ≠ .file path))
  | .start | .spawn | .ask _ | .send _ | .stop | .join | .take _ | .serve _ => isTrue trivial

instance decidableUndisturbed (e : Engine σ) :
    (s : System σ) → (events : List Event) → Decidable (Undisturbed e s events)
  | _, [] => isTrue trivial
  | s, event :: events =>
      have (s' : System σ) : Decidable (Undisturbed e s' events) := decidableUndisturbed e s' events
      inferInstanceAs (Decidable (s.Spares event ∧ ∀ s' ∈ step? e s event, Undisturbed e s' events))

theorem sound_step {event : Event} (h : Sound s) (spares : s.Spares event)
    (hs : step? e s event = some s') : Sound s' ∧ s'.view e = (s.view e).respond e event := by
  cases event with
  | start => exact sound_start h hs
  | spawn => exact sound_spawn h hs
  | ask r => exact sound_ask h hs
  | send r => exact sound_send h hs
  | stop => exact sound_stop h hs
  | join => exact sound_join h hs
  | take i => exact sound_take h hs
  | serve i => exact sound_serve h hs
  | edit path content => exact sound_edit h spares hs

/-- By induction on the events, each being what it is to the server. -/
theorem sound_run {events : List Event} (h : Sound s) (undisturbed : Undisturbed e s events)
    (hs : run e s events = some s') :
    Sound s' ∧ s'.view e = (s.view e).respondAll e events := by
  induction events generalizing s with
  | nil =>
    cases hs
    exact ⟨h, rfl⟩
  | cons event events ih =>
    obtain ⟨next, there, rest⟩ := Option.bind_eq_some_iff.1 hs
    obtain ⟨sound, same⟩ := sound_step h undisturbed.1 there
    obtain ⟨sound', same'⟩ := ih sound (undisturbed.2 next there) rest
    refine ⟨sound', ?_⟩
    rw [same', same]
    rfl

theorem sound_idle (files : Files) : Sound (idle files : System σ) where
  phase := .resting ⟨rfl, nofun, rfl, .inl rfl⟩
  tickets := rfl

/-! ## 6. The work that is left -/

/-- The steps that workers have to make for all that is queued. -/
def work (s : System σ) : Nat :=
  (s.workers.flatMap Worker.held).length + 2 * s.queue.length

theorem work_snoc (workers : s.workers = before ++ [w]) (ended : ∀ w ∈ before, w = .ended) :
    s.work = w.held.length + 2 * s.queue.length := by
  rw [work, workers, List.flatMap_append, held_of_ended ended, List.nil_append,
    List.flatMap_singleton]

theorem Working.work_set (h : Working s before w requests)
    (workers : s'.workers = s.workers.set before.length v) :
    s'.work = v.held.length + 2 * s'.queue.length := by
  refine work_snoc ?_ h.ended
  rw [workers, h.workers, List.set_append_right _ _ (Nat.le_refl _), Nat.sub_self]
  rfl

/-- A step of a worker is one step less to do: an item is taken and then served. -/
theorem work_take (h : Sound s) (hs : step? e s (.take i) = some s') : s.work = s'.work + 1 := by
  obtain ⟨item, queue, there, front, rfl⟩ := take_cases hs
  obtain ⟨before, requests, rfl, work⟩ := h.phase.working_of_lives there rfl
  rw [work_snoc work.workers work.ended, work.work_set rfl, front]
  show 0 + 2 * (queue.length + 1) = 1 + 2 * queue.length + 1
  omega

theorem work_serve (h : Sound s) (hs : step? e s (.serve i) = some s') :
    s.work = s'.work + 1 := by
  rcases serve_cases hs with ⟨there, rfl⟩ | ⟨ticket, r, there, rfl⟩
  case inl =>
    obtain ⟨before, requests, rfl, work⟩ := h.phase.working_of_lives there rfl
    rw [work_snoc work.workers work.ended, work.work_set rfl]
    exact Nat.add_right_comm 0 1 _
  case inr =>
    obtain ⟨before, requests, rfl, work⟩ := h.phase.working_of_lives there rfl
    have after : (s.served e before.length ticket r).work
        = Worker.waiting.held.length + 2 * s.queue.length := work.work_set rfl
    rw [work_snoc work.workers work.ended, after]
    exact Nat.add_right_comm 0 1 _

/-- A step of a worker is nothing to the server, and there is one less to make. -/
theorem step_of_isWork {event : Event} (h : Sound s) (isWork : event.isWork = true)
    (hs : step? e s event = some s') :
    Sound s' ∧ s'.view e = s.view e ∧ s.work = s'.work + 1 := by
  cases event with
  | take i => exact ⟨(sound_take h hs).1, (sound_take h hs).2, work_take h hs⟩
  | serve i => exact ⟨(sound_serve h hs).1, (sound_serve h hs).2, work_serve h hs⟩
  | _ => cases isWork

/-- As long as something is queued or held, a worker can make a step. -/
theorem exists_work (h : Sound s) (left : s.work ≠ 0) :
    ∃ event : Event, event.isWork = true ∧ (step? e s event).isSome = true := by
  cases h.phase with
  | resting rest =>
    rw [work, held_of_ended rest.ended, rest.empty] at left
    exact absurd rfl left
  | finished before past =>
    rw [work_snoc past.workers past.ended, past.empty] at left
    exact absurd rfl left
  | working before w requests work =>
    have there : s.workers[before.length]? = some w := by
      rw [work.workers, List.getElem?_concat_length]
    cases w with
    | ended => cases work.lives
    | waiting =>
      rw [work_snoc work.workers work.ended] at left
      obtain ⟨item, queue, front⟩ : ∃ item queue, s.queue = item :: queue :=
        List.exists_cons_of_ne_nil fun empty => left (by rw [empty]; rfl)
      refine ⟨.take before.length, rfl, ?_⟩
      rw [step?, there, front]
      rfl
    | holding item =>
      refine ⟨.serve before.length, rfl, ?_⟩
      rw [step?, there]
      cases item <;> rfl

/-- With no work left nothing is pending, and a client that waits for the end of the
worker need not wait any more. -/
theorem settled_of_work (h : Sound s) (done : s.work = 0) :
    s.queue = [] ∧ s.pending = [] ∧ (s.client = .joining → (step? e s .join).isSome = true) := by
  rw [work, Nat.add_eq_zero_iff, List.length_eq_zero_iff] at done
  have empty : s.queue = [] := List.length_eq_zero_iff.1 (by omega)
  refine ⟨empty, by rw [pending, items, done.1, empty]; rfl, fun joining => ?_⟩
  cases h.phase with
  | resting rest => rcases rest.client with client | client <;> simp [client] at joining
  | finished before past =>
    rw [step?, if_pos ⟨joining, running_snoc past.known past.workers⟩]
    rfl
  | working before w requests work =>
    have items := work.items
    rw [work.workers, List.flatMap_append, List.flatMap_singleton, List.append_eq_nil_iff] at done
    rw [done.1.2, empty, joining] at items
    cases requests <;> cases items

theorem run_of_isWork {events : List Event} (h : Sound s)
    (isWork : ∀ event ∈ events, event.isWork = true) (hs : run e s events = some s') :
    Sound s' ∧ s'.view e = s.view e ∧ s.work = s'.work + events.length := by
  induction events generalizing s with
  | nil =>
    cases hs
    exact ⟨h, rfl, rfl⟩
  | cons event events ih =>
    obtain ⟨first, others⟩ := List.forall_mem_cons.1 isWork
    obtain ⟨next, there, rest⟩ := Option.bind_eq_some_iff.1 hs
    obtain ⟨sound, same, less⟩ := step_of_isWork h first there
    obtain ⟨sound', same', less'⟩ := ih sound others rest
    refine ⟨sound', same'.trans same, ?_⟩
    rw [less, less', List.length_cons, Nat.add_assoc]

/-! ## 7. Tickets and ends of stops -/

/-- A ticket is given out exactly where a request is queued. -/
theorem nextTicket_step {event : Event} (hs : step? e s event = some s') :
    s'.nextTicket = s.nextTicket + (Event.accepted [event]).length := by
  cases event <;> simp only [step?] at hs <;> (repeat' split at hs) <;> cases hs <;> rfl

theorem nextTicket_run {events : List Event} (hs : run e s events = some s') :
    s'.nextTicket = s.nextTicket + (Event.accepted events).length := by
  induction events generalizing s with
  | nil =>
    cases hs
    rfl
  | cons event events ih =>
    obtain ⟨next, there, rest⟩ := Option.bind_eq_some_iff.1 hs
    have split : Event.accepted (event :: events)
        = Event.accepted [event] ++ Event.accepted events :=
      List.filterMap_append (l := [event])
    rw [ih rest, nextTicket_step there, split, List.length_append, Nat.add_assoc]

/-- The last of some events is one with which a stop returns. -/
def Returns (events : List Event) (s : System σ) : Prop :=
  ∃ earlier, events = earlier ++ [.join] ∨ (events = earlier ++ [.stop] ∧ s.client = .free)

theorem forgotten_of_returns {events : List Event} (returns : Returns events s')
    (hs : run e s events = some s') : s'.handle = none := by
  obtain ⟨earlier, rfl | ⟨rfl, free⟩⟩ := returns <;> rw [run_append] at hs
    <;> obtain ⟨mid, _, last⟩ := Option.bind_eq_some_iff.1 hs
    <;> obtain ⟨_, last, same⟩ := Option.bind_eq_some_iff.1 last <;> cases same
  · rw [step?, Option.ite_none_right_eq_some] at last
    cases last.2
    rfl
  · rw [step?, Option.ite_none_right_eq_some] at last
    obtain ⟨_, last⟩ := last
    cases known : mid.handle with
    | none =>
      rw [known, Option.isNone_none, if_pos rfl] at last
      cases last
      exact known
    | some i =>
      rw [known, Option.isNone_some, if_neg (by decide)] at last
      cases last
      cases free

/-! ## 8. The service as a server -/

/-- After some events a system does as a server does. -/
structure Refines (e : Engine σ) (events : List Event) (s : System σ) (t : Server σ) : Prop where
  /-- The same requests were refused. -/
  refused : s.refused = t.refused
  /-- The next request is refused if the server is down, and then leaves all as it is. -/
  asked : s.client = .free → ∀ r, step? e s (.ask r) = some
    (if t.service.alive then { s with client := .submitting r }
      else { s with refused := s.refused ++ [r] })
  /-- A request that was let in is still let in when it is queued. -/
  submitting : ∀ r, s.client = .submitting r → s.running = true ∧ t.service.alive = true
  /-- The server has one outcome for each request that was queued, in their order. -/
  tickets : t.service.outcomes.map Prod.fst = List.range (Event.accepted events).length
  /-- The outcomes so far are the first ones of the server. -/
  outcomes : s.outcomes <+: t.service.outcomes
  /-- Only the worker that the service knows lives. -/
  alone : ∀ i w, s.workers[i]? = some w → w.lives = true → s.handle = some i
  /-- When a stop returns, no worker is known. -/
  returned : Returns events s → s.handle = none
  /-- Where no worker is known, nothing is queued and no outcome is missing. -/
  stopped : s.handle = none → s.queue = [] ∧ s.outcomes = t.service.outcomes
  /-- The sign to end is there only while the client waits. -/
  unsigned : s.client ≠ .joining → .stop ∉ s.items
  /-- Workers left alone can go on until the work is done, and are done after that many
  steps; then no outcome is missing, and a stop under way returns. -/
  progress : ∀ more s', (∀ event ∈ more, event.isWork = true) → run e s more = some s' →
    s.work = s'.work + more.length
    ∧ (s'.work ≠ 0 → ∃ event : Event, event.isWork = true ∧ (step? e s' event).isSome = true)
    ∧ (s'.work = 0 → s'.queue = [] ∧ s'.outcomes = t.service.outcomes
      ∧ (s'.client = .joining → (step? e s' .join).isSome = true))

theorem view_idle (files : Files) : (idle files).view e = Server.idle files :=
  rfl

/-- Where the service knows no worker none lives. -/
theorem Sound.resting_of_forgotten (h : Sound s) (forgotten : s.handle = none) : Resting s := by
  cases h.phase with
  | resting rest => exact rest
  | working before w requests work =>
    rw [work.known] at forgotten
    cases forgotten
  | finished before past =>
    rw [past.known] at forgotten
    cases forgotten

theorem Sound.stop_not_mem (h : Sound s) (client : s.client ≠ .joining) : .stop ∉ s.items := by
  cases h.phase with
  | resting rest =>
    rw [rest.items]
    exact List.not_mem_nil
  | working before w requests work =>
    have none : s.client.sign = [] := by
      cases given : s.client with
      | joining => exact absurd given client
      | _ => rfl
    rw [work.items_eq, none, List.append_nil]
    exact work.real
  | finished before past => exact absurd past.client client

/-- With nothing pending, the outcomes of the server are those that have been given. -/
theorem outcomes_of_pending (pending : s.pending = []) :
    (s.view e).service.outcomes = s.outcomes := by
  rw [view, pending]
  exact List.append_nil _

/-- **Whatever the order of its steps, the service does what a server does that serves
each request as it is queued**, as long as no file changes that a queued request reads. -/
theorem refines_server (e : Engine σ) (files : Files) {events : List Event} {s : System σ}
    (hs : run e (idle files) events = some s) (undisturbed : Undisturbed e (idle files) events) :
    Refines e events s ((Server.idle files).respondAll e events) := by
  obtain ⟨sound, same⟩ := sound_run (sound_idle files) undisturbed hs
  rw [view_idle] at same
  rw [← same]
  refine ⟨rfl, fun free r => ?asked, fun r submitting => ?submitting, ?tickets, ⟨_, rfl⟩,
    fun i w there lives => ?alone, fun returns => forgotten_of_returns returns hs,
    fun forgotten => ?stopped, sound.stop_not_mem, fun more s' isWork after => ?progress⟩
  case asked =>
    rw [step?, if_pos free, sound.running_eq (by simp [free])]
    rfl
  case submitting =>
    obtain ⟨before, w, requests, work⟩ := sound.working_of_submitting submitting
    have lives : s.running = true := by rw [running_snoc work.known work.workers, work.lives]
    exact ⟨lives, by rw [view_alive, ← sound.running_eq (by simp [submitting]), lives]⟩
  case tickets =>
    rw [tickets_view sound, nextTicket_run hs]
    exact congrArg List.range (Nat.zero_add _)
  case alone =>
    obtain ⟨before, requests, rfl, work⟩ := sound.phase.working_of_lives there lives
    exact work.known
  case stopped =>
    have rest := sound.resting_of_forgotten forgotten
    exact ⟨rest.empty, (outcomes_of_pending rest.pending).symm⟩
  case progress =>
    obtain ⟨sound', same', left⟩ := run_of_isWork sound isWork after
    refine ⟨left, exists_work sound', fun done => ?_⟩
    obtain ⟨empty, none, returns⟩ := settled_of_work sound' done
    exact ⟨empty, by rw [← same', outcomes_of_pending none], returns⟩

/-- One schema on the shelf. -/
def shelf : Files := fun path =>
  if path = ("a.rng" : Text) then
    some "<element name='a' xmlns='http://relaxng.org/ns/structure/1.0'><text/></element>"
  else none

/-- A request before the start, one whose schema is missing between two others, a file
that changes when it is no longer read, a second stop and a second start. -/
def course : List Event :=
  let first := Request.ofFile .relaxng "<a/>" "a.rng"
  let missing := Request.ofFile .xsd "<a/>" "b.xsd"
  let last := Request.ofText .relaxng "<b/>" "<element/>" "b"
  [.ask first, .stop, .start, .spawn, .start, .ask first, .send first, .ask missing, .take 0,
    .send missing, .serve 0, .edit "a.rng" none, .ask last, .take 0, .send last, .stop,
    .serve 0, .take 0, .serve 0, .take 0, .serve 0, .edit "b.xsd" (some "<a/>"), .join, .stop,
    .start, .spawn, .ask first, .send first, .take 1]

theorem refines_server_restarted :
    Undisturbed Engine.simple (idle shelf) course
    ∧ ∃ s, run Engine.simple (idle shelf) course = some s
      ∧ s.outcomes.map Prod.fst = [0, 1, 2]
      ∧ List.lookup 1 s.outcomes = some (.noSchema (.file "b.xsd"))
      ∧ Refines Engine.simple course s ((Server.idle shelf).respondAll Engine.simple course) := by
  have undisturbed : Undisturbed Engine.simple (idle shelf) course := by decide +kernel
  have reached : (run Engine.simple (idle shelf) course).map
      (fun s => (s.outcomes.map Prod.fst, List.lookup 1 s.outcomes))
        = some ([0, 1, 2], some (.noSchema (.file "b.xsd"))) := by
    decide +kernel
  obtain ⟨s, hs, seen⟩ := Option.map_eq_some_iff.1 reached
  obtain ⟨tickets, second⟩ := Prod.mk.inj seen
  exact ⟨undisturbed, s, hs, tickets, second, refines_server Engine.simple shelf hs undisturbed⟩

end System

end Transcription.Validation
