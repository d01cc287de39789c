/-
Transcription.Validation.Interleaving — the client of a validation service and its
workers, step by step and in any order.

The client starts and stops the service and asks for validations; workers take items
from the queue and serve them. A check whether a worker lives and what the client does
upon it are two steps, and so are taking an item and serving it: anything may happen in
between, and files may change at any time. The service knows the worker that it
started last, until it has waited for its end; the other workers are not known to have
ended, so they may go on where they still live.

Beside it stands a server with no worker at all, which serves each request as it comes.
-/
import Transcription.Validation.Service

namespace Transcription.Validation

/-! ## 1. States -/

/-- What a worker is doing. -/
inductive Worker where
  /-- It waits for an item. -/
  | waiting
  | holding (item : Item)
  | ended
  deriving DecidableEq, Repr

/-- Whether a worker lives. -/
def Worker.lives : Worker → Bool
  | .ended => false
  | _ => true

/-- The call that the client is in. -/
inductive Client where
  | free
  /-- No worker was found to live; one is to be started. -/
  | starting
  /-- A worker was found to live; the request is to be queued. -/
  | submitting (r : Request)
  /-- The sign to end is queued; the client waits for the end of the worker. -/
  | joining
  deriving DecidableEq, Repr

/-- The client, the worker that the service knows by its place among all that were
started, the queue, the schemas kept, the outcomes in the order in which they came,
the next ticket, the requests refused, and the files. -/
structure System (σ : Type) where
  client : Client
  handle : Option Nat
  workers : List Worker
  queue : List Item
  cache : Cache σ
  outcomes : List (Nat × Outcome)
  nextTicket : Nat
  refused : List Request
  files : Files

/-- What happens: a step of the client, of one of the workers, or to a file. -/
inductive Event where
  /-- The client calls for a start: nothing is done where a worker lives. -/
  | start
  /-- The start goes on: there is a new worker. -/
  | spawn
  /-- The client makes a request: refused where no worker lives. -/
  | ask (r : Request)
  /-- The request goes on: it is queued. -/
  | send (r : Request)
  /-- The client calls for a stop: nothing is done where no worker is known. -/
  | stop
  /-- The stop goes on: the worker has ended and is forgotten. -/
  | join
  /-- A worker takes the next item of the queue. -/
  | take (worker : Nat)
  /-- A worker serves the item that it holds. -/
  | serve (worker : Nat)
  /-- A file gets another content, or is no more. -/
  | edit (path : Text) (content : Option Text)
  deriving DecidableEq, Repr

/-- Files after one was changed. -/
def edited (files : Files) (path : Text) (content : Option Text) : Files :=
  fun p => if p = path then content else files p

namespace System

variable {σ : Type}

/-- A service that has not been started, with some files. -/
def idle (files : Files) : System σ :=
  ⟨.free, none, [], [], [], [], 0, [], files⟩

/-- Whether the worker that the service knows lives. -/
def running (s : System σ) : Bool :=
  (s.handle.bind fun i => s.workers[i]?).any Worker.lives

/-! ## 2. Steps -/

/-- The system after a worker has served a request. -/
def served (e : Engine σ) (s : System σ) (i ticket : Nat) (r : Request) : System σ :=
  let (outcome, cache) := Service.serve e s.files s.cache r
  { s with
    workers := s.workers.set i .waiting, cache := cache
    outcomes := s.outcomes ++ [(ticket, outcome)] }

/-- What an event makes of the system; none where it cannot happen. -/
def step? (e : Engine σ) (s : System σ) : Event → Option (System σ)
  | .start =>
      if s.client = .free then
        some (if s.running then s else { s with client := .starting })
      else none
  | .spawn =>
      if s.client = .starting then
        some { s with
          client := .free, handle := some s.workers.length, workers := s.workers ++ [.waiting] }
      else none
  | .ask r =>
      if s.client = .free then
        some (if s.running then { s with client := .submitting r }
          else { s with refused := s.refused ++ [r] })
      else none
  | .send r =>
      if s.client = .submitting r then
        some { s with
          client := .free, queue := s.queue ++ [.request s.nextTicket r]
          nextTicket := s.nextTicket + 1 }
      else none
  | .stop =>
      if s.client = .free then
        some (if s.handle.isNone then s
          else { s with client := .joining, queue := s.queue ++ [.stop] })
      else none
  | .join =>
      if s.client = .joining ∧ s.running = false then
        some { s with client := .free, handle := none }
      else none
  | .take i =>
      match s.workers[i]?, s.queue with
      | some .waiting, item :: queue =>
          some { s with workers := s.workers.set i (.holding item), queue := queue }
      | _, _ => none
  | .serve i =>
      match s.workers[i]? with
      | some (.holding .stop) => some { s with workers := s.workers.set i .ended }
      | some (.holding (.request ticket r)) => some (s.served e i ticket r)
      | _ => none
  | .edit path content => some { s with files := edited s.files path content }

/-- What events make of the system one after the other; none where one of them cannot
happen. -/
def run (e : Engine σ) : System σ → List Event → Option (System σ)
  | s, [] => some s
  | s, event :: events => (step? e s event).bind fun s => run e s events

section

variable {e : Engine σ} {s s' : System σ} {i : Nat}

theorem take_cases (hs : step? e s (.take i) = some s') :
    ∃ item queue, s.workers[i]? = some .waiting ∧ s.queue = item :: queue
      ∧ s' = { s with workers := s.workers.set i (.holding item), queue := queue } := by
  rw [step?] at hs
  split at hs
  case h_1 item queue there front => exact ⟨item, queue, there, front, (Option.some.inj hs).symm⟩
  case h_2 => cases hs

theorem serve_cases (hs : step? e s (.serve i) = some s') :
    (s.workers[i]? = some (.holding .stop) ∧ s' = { s with workers := s.workers.set i .ended })
      ∨ ∃ ticket r, s.workers[i]? = some (.holding (.request ticket r))
        ∧ s' = s.served e i ticket r := by
  rw [step?] at hs
  split at hs
  case h_1 there => exact .inl ⟨there, (Option.some.inj hs).symm⟩
  case h_2 ticket r there => exact .inr ⟨ticket, r, there, (Option.some.inj hs).symm⟩
  case h_3 => cases hs

theorem run_append (s : System σ) (events more : List Event) :
    run e s (events ++ more) = (run e s events).bind fun s => run e s more := by
  induction events generalizing s with
  | nil => rfl
  | cons event events ih =>
    rw [List.cons_append, run, run, Option.bind_assoc]
    exact congrArg _ (funext ih)

end

end System

/-! ## 3. A server without workers -/

/-- A service that serves each request as it comes, with the files, and the requests
that were refused. -/
structure Server (σ : Type) where
  service : Service σ
  files : Files
  refused : List Request

namespace Server

variable {σ : Type}

/-- A server that has not been started, with some files. -/
def idle (files : Files) : Server σ :=
  ⟨Service.idle, files, []⟩

/-- What an event is to the server: a call of the client, which is done with at once,
a change of a file, or nothing. -/
def respond (e : Engine σ) (t : Server σ) : Event → Server σ
  | .spawn => { t with service := t.service.start }
  | .ask r => if t.service.alive then t else { t with refused := t.refused ++ [r] }
  | .send r =>
      match t.service.request e t.files r with
      | some (_, service) => { t with service := service }
      | none => t
  | .stop => { t with service := t.service.stop e t.files }
  | .edit path content => { t with files := edited t.files path content }
  | .start | .join | .take _ | .serve _ => t

/-- What events are to the server one after the other. -/
def respondAll (e : Engine σ) : Server σ → List Event → Server σ :=
  List.foldl (respond e)

end Server

end Transcription.Validation
