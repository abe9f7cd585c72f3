import HappyView.Consumer.Watermark
import HappyView.Foundation.Machine
import Mathlib.Logic.Function.Basic

/-!
# Per-DID ordered application across a fixed set of workers

Each event goes to worker `hash(did) % workers`, which applies its queue in order.
A failed event is retried in place, once for each delay of the policy, and then
given up; an event that failed only because the infrastructure is unavailable is
retried until it applies. Either way the worker then completes the event's ticket.

The reader, the workers and the calls into `apply` and `on_give_up` interleave freely, so the pool
is a machine: `Action` names one atomic step of one party.
-/

namespace HappyView.Consumer

open HappyView.Foundation

/-- What a worker does not look into (the frame's kind and body) is left abstract. -/
structure Event (K : Type) where
  did : String
  cursor : CursorPoint
  kind : K
  deriving DecidableEq

structure Job (K : Type) where
  ticket : Nat
  event : Event K
  deriving DecidableEq

/-- What calling `apply` came to: an `ApplyOutcome`, or a panic the worker caught. -/
inductive Outcome where
  | applied
  | failed (error : String)
  | unavailable (error : String)
  | panicked (message : String)
  deriving DecidableEq

def Outcome.failure : Outcome → Option String
  | .failed error => some error
  | .panicked message => some ("panicked: " ++ message)
  | .applied | .unavailable _ => none

structure RetryPolicy where
  /-- The waits before each retry of a failed event, in milliseconds. -/
  delays : List Nat
  maxUnavailableDelay : Nat

/-- The wait before the `retry`th retry of an unavailable event. -/
def RetryPolicy.unavailableDelay (policy : RetryPolicy) (retry : Nat) : Nat :=
  min ((policy.delays[retry]?.or policy.delays.getLast?).getD policy.maxUnavailableDelay)
    policy.maxUnavailableDelay

/-- Where a worker is in `run_worker`. `delays` is what is left of the iterator over
the policy's delays, `retries` counts the unavailable attempts. -/
inductive Phase (K : Type) where
  | idle
  /-- Sleeping `wait` milliseconds before the next call of `apply`. -/
  | waiting (job : Job K) (delays : List Nat) (retries wait : Nat)
  | applying (job : Job K) (delays : List Nat) (retries : Nat)
  | givingUp (job : Job K) (error : String)
  /-- `apply_with_retries` has returned; the ticket is still open. -/
  | settled (job : Job K)

structure Worker (K : Type) where
  queue : List (Job K) := []
  phase : Phase K := .idle
  /-- The receiving end is gone, so a send is refused. -/
  closed : Bool := false

inductive Entry (K : Type) where
  | attempt (job : Job K)
  | outcome (job : Job K) (outcome : Outcome)
  | gaveUp (job : Job K) (error : String)

def Entry.job {K : Type} : Entry K → Job K
  | .attempt job | .outcome job _ | .gaveUp job _ => job

@[simp] theorem Entry.job_attempt {K : Type} (job : Job K) : (Entry.attempt job).job = job := rfl

@[simp] theorem Entry.job_outcome {K : Type} (job : Job K) (o : Outcome) :
    (Entry.outcome job o).job = job := rfl

@[simp] theorem Entry.job_gaveUp {K : Type} (job : Job K) (error : String) :
    (Entry.gaveUp job error).job = job := rfl

inductive Task where
  | recv
  | call
  | reply (outcome : Outcome)
  | giveUp
  | complete
  deriving DecidableEq

variable {K : Type}

/-- A failed event is retried only while a delay is left. -/
def Phase.afterFailure (job : Job K) (retries : Nat) (error : String) : List Nat → Phase K
  | [] => .givingUp job error
  | delay :: delays => .waiting job delays retries delay

/-- `apply_with_retries` from the reply of one call to the next. -/
def Phase.afterReply (policy : RetryPolicy) (job : Job K) (delays : List Nat) (retries : Nat) :
    Outcome → Phase K
  | .applied => .settled job
  | .unavailable _ => .waiting job delays (retries + 1) (policy.unavailableDelay retries)
  | .failed error => .afterFailure job retries error delays
  | .panicked message => .afterFailure job retries ("panicked: " ++ message) delays

def Worker.step (policy : RetryPolicy) (w : Worker K) :
    Task → Option (Worker K × List (Entry K) × Option Nat)
  | .recv => match w.phase, w.queue with
    | .idle, job :: queue =>
      some ({ w with queue, phase := .waiting job policy.delays 0 0 }, [], none)
    | _, _ => none
  | .call => match w.phase with
    | .waiting job delays retries _ =>
      some ({ w with phase := .applying job delays retries }, [.attempt job], none)
    | _ => none
  | .reply outcome => match w.phase with
    | .applying job delays retries =>
      some ({ w with phase := .afterReply policy job delays retries outcome },
        [.outcome job outcome], none)
    | _ => none
  | .giveUp => match w.phase with
    | .givingUp job error => some ({ w with phase := .settled job }, [.gaveUp job error], none)
    | _ => none
  | .complete => match w.phase with
    | .settled job => some ({ w with phase := .idle }, [], some job.ticket)
    | _ => none

/-! ## The pool -/

structure Config where
  workers : Nat
  capacity : Nat
  retry : RetryPolicy
  hash : String → Nat

def workerFor (hash : String → Nat) (did : String) (workers : Nat) : Nat :=
  hash did % max workers 1

def Config.count (c : Config) : Nat := max c.workers 1

def Config.owner (c : Config) (job : Job K) : Nat := workerFor c.hash job.event.did c.count

theorem Config.owner_lt (c : Config) (job : Job K) : c.owner job < c.count := by
  have pos : 0 < c.count := Nat.le_max_right c.workers 1
  rw [Config.owner, workerFor, Nat.max_eq_left pos]
  exact Nat.mod_lt _ pos

structure Pool (K : Type) where
  watermark : Watermark := {}
  /-- The job the reader is dispatching, while its queue is full. -/
  reader : Option (Job K) := none
  workers : Nat → Worker K := fun _ => {}
  log : List (Entry K) := []
  jobs : List (Job K) := []

inductive Action (K : Type) where
  | read (event : Event K)
  | send
  | work (worker : Nat) (task : Task)

namespace Pool

/-- The reader takes an event off the stream: its ticket is issued before it is sent. -/
def read (p : Pool K) (event : Event K) : Option (Pool K) :=
  match p.reader with
  | some _ => none
  | none =>
    let issued := p.watermark.begin event.cursor
    let job := ⟨issued.1, event⟩
    some { p with watermark := issued.2, reader := some job, jobs := p.jobs ++ [job] }

/-- `dispatch`: a full queue makes it wait; a stopped worker's job is retired here. -/
def send (c : Config) (p : Pool K) : Option (Pool K) :=
  match p.reader with
  | none => none
  | some job =>
    let w := p.workers (c.owner job)
    if w.closed then
      some { p with reader := none, watermark := p.watermark.complete job.ticket }
    else if w.queue.length < max c.capacity 1 then
      some { p with
        reader := none
        workers := Function.update p.workers (c.owner job) { w with queue := w.queue ++ [job] } }
    else none

def work (c : Config) (p : Pool K) (i : Nat) (task : Task) : Option (Pool K) :=
  if i < c.count then
    ((p.workers i).step c.retry task).map fun (w, entries, ticket) =>
      { p with
        workers := Function.update p.workers i w
        log := p.log ++ entries
        watermark := match ticket with
          | some ticket => p.watermark.complete ticket
          | none => p.watermark }
  else none

def step (c : Config) (p : Pool K) : Action K → Option (Pool K)
  | .read event => p.read event
  | .send => p.send c
  | .work i task => p.work c i task

variable {c : Config} {p q : Pool K}

theorem read_cases {event : Event K} (h : p.read event = some q) :
    p.reader = none ∧ q = { p with
      watermark := (p.watermark.begin event.cursor).2
      reader := some ⟨(p.watermark.begin event.cursor).1, event⟩
      jobs := p.jobs ++ [⟨(p.watermark.begin event.cursor).1, event⟩] } := by
  unfold read at h
  split at h
  · cases h
  · rename_i idle
    cases h
    exact ⟨idle, rfl⟩

theorem send_cases (running : ∀ i, (p.workers i).closed = false) (h : p.send c = some q) :
    ∃ job, p.reader = some job ∧
      (p.workers (c.owner job)).queue.length < max c.capacity 1 ∧
      q = { p with
        reader := none
        workers := Function.update p.workers (c.owner job)
          { p.workers (c.owner job) with queue := (p.workers (c.owner job)).queue ++ [job] } } := by
  unfold send at h
  split at h
  · cases h
  · rename_i job held
    dsimp only at h
    rw [if_neg (by simp [running])] at h
    split at h
    · rename_i room
      cases h
      exact ⟨job, held, room, rfl⟩
    · cases h

theorem work_cases {i : Nat} {task : Task} (h : p.work c i task = some q) :
    i < c.count ∧ ∃ w entries ticket, (p.workers i).step c.retry task = some (w, entries, ticket) ∧
      q = { p with
        workers := Function.update p.workers i w
        log := p.log ++ entries
        watermark := ticket.elim p.watermark p.watermark.complete } := by
  unfold work at h
  split at h
  · rename_i known
    obtain ⟨⟨w, entries, ticket⟩, one, rfl⟩ := Option.map_eq_some_iff.mp h
    refine ⟨known, w, entries, ticket, one, ?_⟩
    cases ticket <;> rfl
  · cases h

end Pool

def pool (K : Type) (c : Config) : Machine (Pool K) (Action K) where
  start := {}
  step := Pool.step c

end HappyView.Consumer
