import HappyView.Foundation.FiniteMap
import HappyView.Foundation.Machine

/-!
# Webhook queues and workers

Each space with recent writes has a worker that delivers their batches to the space's webhooks, and
a bounded queue that the worker receives from. A table holds the sending end of each space's queue.
Batches are sent while the table is locked, and a worker that has been idle takes the lock to see
whether its queue is still empty before it removes its entry and stops.

`Hub` is the table with all the workers, over any type of batches.
-/

namespace HappyView.Spaces.Webhooks

open HappyView.Foundation

/-- `WEBHOOK_QUEUE` -/
def webhookQueue : Nat := 256

inductive Phase (β : Type) where
  | receiving
  | idled
  | delivering (batch : β)
  /-- It has returned, and its end of the queue is gone. -/
  | stopped
  deriving DecidableEq

def Phase.isStopped {β : Type} : Phase β → Bool
  | .stopped => true
  | _ => false

structure Worker (β : Type) where
  spaceId : String
  queue : List β := []
  phase : Phase β := .receiving
  deriving DecidableEq

structure Hub (β : Type) where
  queues : AList fun _ : String => Nat := ∅
  workers : AList fun _ : Nat => Worker β := ∅
  spawned : Nat := 0
  sent : List (String × β) := []
  dropped : List (String × β) := []
  /-- What was dropped because two workers in a row had stopped. -/
  lost : List (String × β) := []
  taken : List (String × β) := []

namespace Hub

variable {β : Type}

def spawnWebhookWorker (h : Hub β) (spaceId : String) : Hub β :=
  { h with
    queues := h.queues.insert spaceId h.spawned
    workers := h.workers.insert h.spawned { spaceId }
    spawned := h.spawned + 1 }

/-- `entry(space_id).or_insert_with(spawn_webhook_worker)` -/
def entry (h : Hub β) (spaceId : String) : Nat × Hub β :=
  match h.queues.lookup spaceId with
  | some w => (w, h)
  | none => (h.spawned, h.spawnWebhookWorker spaceId)

inductive TrySend (β : Type) where
  | ok (h : Hub β)
  | full
  | closed

def trySend (h : Hub β) (w : Nat) (batch : β) : TrySend β :=
  match h.workers.lookup w with
  | none => .closed
  | some worker =>
    if worker.phase.isStopped then .closed
    else if webhookQueue ≤ worker.queue.length then .full
    else .ok { h with
      workers := h.workers.insert w { worker with queue := worker.queue ++ [batch] } }

/-- The loop of `announce_writes`, with so many tries left. -/
def announceTries (spaceId : String) (batch : β) : Nat → Hub β → Hub β
  | 0, h => { h with lost := h.lost ++ [(spaceId, batch)] }
  | tries + 1, h =>
    let (w, h) := h.entry spaceId
    match h.trySend w batch with
    | .ok h => { h with sent := h.sent ++ [(spaceId, batch)] }
    | .full => { h with dropped := h.dropped ++ [(spaceId, batch)] }
    | .closed => announceTries spaceId batch tries { h with queues := h.queues.erase spaceId }

/-- `announce_writes`, for a batch that is not empty. It holds the lock of the table. -/
def announce (h : Hub β) (spaceId : String) (batch : β) : Hub β :=
  h.announceTries spaceId batch 2

def setWorker (h : Hub β) (w : Nat) (worker : Worker β) : Hub β :=
  { h with workers := h.workers.insert w worker }

end Hub

/-- `announce_writes`, and the steps of `webhook_worker`. -/
inductive Action (β : Type) where
  | announce (spaceId : String) (batch : β)
  | receive (w : Nat)
  | timeout (w : Nat)
  /-- An idle worker looks at its queue again, under the lock of the table. -/
  | checkIdle (w : Nat)
  | receiveNone (w : Nat)
  | delivered (w : Nat)
  | panic (w : Nat)
  deriving DecidableEq

variable {β : Type}

def step (h : Hub β) : Action β → Option (Hub β)
  | .announce spaceId batch => some (h.announce spaceId batch)
  | .receive w => match h.workers.lookup w with
    | some ⟨spaceId, batch :: queue, .receiving⟩ => some
        { h.setWorker w ⟨spaceId, queue, .delivering batch⟩ with
          taken := h.taken ++ [(spaceId, batch)] }
    | _ => none
  | .timeout w => match h.workers.lookup w with
    | some ⟨spaceId, [], .receiving⟩ => some (h.setWorker w ⟨spaceId, [], .idled⟩)
    | _ => none
  | .checkIdle w => match h.workers.lookup w with
    | some ⟨spaceId, [], .idled⟩ => some
        { h.setWorker w ⟨spaceId, [], .stopped⟩ with queues := h.queues.erase spaceId }
    | some ⟨spaceId, batch :: queue, .idled⟩ =>
      some (h.setWorker w ⟨spaceId, batch :: queue, .receiving⟩)
    | _ => none
  | .receiveNone w => match h.workers.lookup w with
    | some ⟨spaceId, [], .receiving⟩ =>
      if h.queues.lookup spaceId = some w then none
      else some (h.setWorker w ⟨spaceId, [], .stopped⟩)
    | _ => none
  | .delivered w => match h.workers.lookup w with
    | some ⟨spaceId, queue, .delivering _⟩ => some (h.setWorker w ⟨spaceId, queue, .receiving⟩)
    | _ => none
  | .panic w => match h.workers.lookup w with
    | some worker => some (h.setWorker w ⟨worker.spaceId, [], .stopped⟩)
    | none => none

def hub : Machine (Hub β) (Action β) where
  start := {}
  step := step

end HappyView.Spaces.Webhooks
