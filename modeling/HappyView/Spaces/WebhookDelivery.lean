import HappyView.Spaces.Webhooks

/-!
# Every batch is delivered by one worker

As long as no worker panics, a worker that has not stopped is the one its space sends to. It stops
only under the lock of the table and with an empty queue, so no batch is sent to it afterwards, and
none is left behind.
-/

namespace HappyView.Spaces.Webhooks

open HappyView.Foundation

variable {β : Type}

/-! ## The order in the hub -/

def batchesOf (spaceId : String) (batches : List (String × β)) : List β :=
  (batches.filter (·.1 = spaceId)).map (·.2)

def Hub.waiting (h : Hub β) (spaceId : String) : List β :=
  ((h.queues.lookup spaceId).bind h.workers.lookup).elim [] Worker.queue

structure Orderly (h : Hub β) : Prop where
  /-- A worker that has not stopped is the one that its space sends to. -/
  registered : ∀ w worker, h.workers.lookup w = some worker → worker.phase.isStopped = false →
    h.queues.lookup worker.spaceId = some w
  alive : ∀ spaceId w, h.queues.lookup spaceId = some w → ∃ worker,
    h.workers.lookup w = some worker ∧ worker.spaceId = spaceId ∧ worker.phase.isStopped = false
  empty : ∀ w worker, h.workers.lookup w = some worker → worker.phase.isStopped = true →
    worker.queue = []
  numbered : ∀ w, h.spawned ≤ w → h.workers.lookup w = none
  accounts : ∀ spaceId,
    batchesOf spaceId h.sent = batchesOf spaceId h.taken ++ h.waiting spaceId
  lost : h.lost = []

section Orderly

variable {h h' : Hub β} {spaceId : String} {w : Nat} {worker worker' : Worker β} {batch : β}

@[simp] theorem batchesOf_append (as bs : List (String × β)) :
    batchesOf spaceId (as ++ bs) = batchesOf spaceId as ++ batchesOf spaceId bs := by
  simp [batchesOf]

theorem waiting_eq (sends : h.queues.lookup spaceId = some w)
    (held : h.workers.lookup w = some worker) : h.waiting spaceId = worker.queue := by
  simp [Hub.waiting, sends, held]

theorem waiting_eq_nil (absent : h.queues.lookup spaceId = none) : h.waiting spaceId = [] := by
  simp [Hub.waiting, absent]

theorem batchesOf_singleton (spaceId' : String) :
    batchesOf spaceId [(spaceId', batch)] = if spaceId' = spaceId then [batch] else [] := by
  by_cases same : spaceId' = spaceId <;> simp [batchesOf, same]

theorem Orderly.spaceId_eq (orderly : Orderly h) {other : String}
    (sends : h.queues.lookup spaceId = some w) (sends' : h.queues.lookup other = some w) :
    other = spaceId := by
  obtain ⟨worker, held, same, -⟩ := orderly.alive spaceId w sends
  obtain ⟨worker', held', same', -⟩ := orderly.alive other w sends'
  rw [held] at held'
  cases held'
  exact same'.symm.trans same

theorem Orderly.work (orderly : Orderly h) (held : h.workers.lookup w = some worker)
    (alive : worker.phase.isStopped = false) (workers : h'.workers = h.workers.insert w worker')
    (space : worker'.spaceId = worker.spaceId) (alive' : worker'.phase.isStopped = false)
    (queues : h'.queues = h.queues) (spawned : h'.spawned = h.spawned) (lost : h'.lost = h.lost)
    (sent : ∀ spaceId, spaceId ≠ worker.spaceId →
      batchesOf spaceId h'.sent = batchesOf spaceId h.sent)
    (taken : ∀ spaceId, spaceId ≠ worker.spaceId →
      batchesOf spaceId h'.taken = batchesOf spaceId h.taken)
    (accounts : batchesOf worker.spaceId h'.sent =
      batchesOf worker.spaceId h'.taken ++ worker'.queue) : Orderly h' := by
  have sends := orderly.registered w worker held alive
  refine ⟨fun v other held' alive'' => ?_, fun id v sends' => ?_, fun v other held' stopped => ?_,
    fun v late => ?_, fun id => ?_, lost.trans orderly.lost⟩
  · rw [workers] at held'
    rw [queues]
    rcases lookup_insert_cases held' with ⟨rfl, rfl⟩ | old
    · rw [space, sends]
    · exact orderly.registered v other old alive''
  · rw [queues] at sends'
    rw [workers]
    by_cases same : v = w
    · subst same
      exact ⟨worker', AList.lookup_insert _, space.trans (orderly.spaceId_eq sends' sends), alive'⟩
    · rw [AList.lookup_insert_ne same]
      exact orderly.alive id v sends'
  · rw [workers] at held'
    rcases lookup_insert_cases held' with ⟨rfl, rfl⟩ | old
    · rw [alive'] at stopped
      cases stopped
    · exact orderly.empty v other old stopped
  · rw [workers]
    rw [spawned] at late
    have none := orderly.numbered v late
    have other : v ≠ w := by
      rintro rfl
      rw [held] at none
      cases none
    rw [AList.lookup_insert_ne other, none]
  · by_cases same : id = worker.spaceId
    · subst same
      rw [accounts, waiting_eq (queues ▸ sends) (workers ▸ AList.lookup_insert _)]
    · have waiting : h'.waiting id = h.waiting id := by
        unfold Hub.waiting
        rw [queues]
        cases found : h.queues.lookup id with
        | none => rfl
        | some v =>
          have other : v ≠ w := by
            rintro rfl
            exact same (orderly.spaceId_eq sends found)
          rw [workers, Option.bind_some, Option.bind_some, AList.lookup_insert_ne other]
      rw [sent id same, taken id same, waiting]
      exact orderly.accounts id

theorem Orderly.spawn (orderly : Orderly h) (absent : h.queues.lookup spaceId = none) :
    Orderly (h.spawnWebhookWorker spaceId) := by
  have new : h.workers.lookup h.spawned = none := orderly.numbered _ le_rfl
  refine ⟨fun v other held alive => ?_, fun id v sends => ?_, fun v other held stopped => ?_,
    fun v late => ?_, fun id => ?_, orderly.lost⟩
  · rcases lookup_insert_cases held with ⟨rfl, rfl⟩ | old
    · exact AList.lookup_insert _
    · have sends := orderly.registered v other old alive
      have apart : other.spaceId ≠ spaceId := by
        intro same
        rw [same, absent] at sends
        cases sends
      exact (AList.lookup_insert_ne apart).trans sends
  · rcases lookup_insert_cases sends with ⟨rfl, rfl⟩ | old
    · exact ⟨{ spaceId := id }, AList.lookup_insert _, rfl, rfl⟩
    · obtain ⟨worker, held, same, alive⟩ := orderly.alive id v old
      have other : v ≠ h.spawned := by
        rintro rfl
        rw [new] at held
        cases held
      exact ⟨worker, (AList.lookup_insert_ne other).trans held, same, alive⟩
  · rcases lookup_insert_cases held with ⟨rfl, rfl⟩ | old
    · rfl
    · exact orderly.empty v other old stopped
  · have late' : h.spawned + 1 ≤ v := late
    have other : v ≠ h.spawned := by omega
    exact (AList.lookup_insert_ne other).trans (orderly.numbered v (by omega))
  · have waiting : (h.spawnWebhookWorker spaceId).waiting id = h.waiting id := by
      by_cases same : id = spaceId
      · subst same
        have sends : (h.spawnWebhookWorker id).queues.lookup id = some h.spawned :=
          AList.lookup_insert _
        rw [waiting_eq_nil absent, waiting_eq sends (AList.lookup_insert _)]
      · unfold Hub.waiting Hub.spawnWebhookWorker
        rw [AList.lookup_insert_ne same]
        cases found : h.queues.lookup id with
        | none => rfl
        | some v =>
          obtain ⟨worker, held, -⟩ := orderly.alive id v found
          have other : v ≠ h.spawned := by
            rintro rfl
            rw [new] at held
            cases held
          rw [Option.bind_some, Option.bind_some, AList.lookup_insert_ne other]
    rw [waiting]
    exact orderly.accounts id

theorem Orderly.stop (orderly : Orderly h) {phase : Phase β}
    (held : h.workers.lookup w = some ⟨spaceId, [], phase⟩) (alive : phase.isStopped = false) :
    Orderly { h.setWorker w ⟨spaceId, [], .stopped⟩ with queues := h.queues.erase spaceId } := by
  have sends : h.queues.lookup spaceId = some w := orderly.registered w _ held alive
  refine ⟨fun v other held' alive' => ?_, fun id v sends' => ?_, fun v other held' stopped => ?_,
    fun v late => ?_, fun id => ?_, orderly.lost⟩
  · rcases lookup_insert_cases held' with ⟨rfl, rfl⟩ | old
    · cases alive'
    · have sends' := orderly.registered v other old alive'
      by_cases same : other.spaceId = spaceId
      · rw [same, sends] at sends'
        cases sends'
        rw [Hub.setWorker, AList.lookup_insert] at held'
        cases held'
        cases alive'
      · exact (AList.lookup_erase_ne same).trans sends'
  · obtain ⟨apart, sends''⟩ := lookup_erase_some sends'
    have other : v ≠ w := by
      rintro rfl
      exact apart (orderly.spaceId_eq sends sends'')
    obtain ⟨worker, found, same, live⟩ := orderly.alive id v sends''
    exact ⟨worker, (AList.lookup_insert_ne other).trans found, same, live⟩
  · rcases lookup_insert_cases held' with ⟨rfl, rfl⟩ | old
    · rfl
    · exact orderly.empty v other old stopped
  · have other : v ≠ w := by
      rintro rfl
      rw [orderly.numbered v late] at held
      cases held
    exact (AList.lookup_insert_ne other).trans (orderly.numbered v late)
  · have waiting : ({ h.setWorker w ⟨spaceId, [], .stopped⟩ with
        queues := h.queues.erase spaceId } : Hub β).waiting id = h.waiting id := by
      by_cases same : id = spaceId
      · subst same
        rw [waiting_eq sends held]
        exact waiting_eq_nil (AList.lookup_erase _ _)
      · unfold Hub.waiting Hub.setWorker
        rw [AList.lookup_erase_ne same]
        cases found : h.queues.lookup id with
        | none => rfl
        | some v =>
          have other : v ≠ w := by
            rintro rfl
            exact same (orderly.spaceId_eq sends found)
          rw [Option.bind_some, Option.bind_some, AList.lookup_insert_ne other]
    rw [waiting]
    exact orderly.accounts id

/-! ## Announcements -/

theorem Orderly.entry (orderly : Orderly h) (spaceId : String) :
    Orderly (h.entry spaceId).2 ∧
      (h.entry spaceId).2.queues.lookup spaceId = some (h.entry spaceId).1 ∧
      (h.entry spaceId).2.sent = h.sent ∧ (h.entry spaceId).2.taken = h.taken ∧
      (h.entry spaceId).2.dropped = h.dropped ∧
      (h.entry spaceId).2.waiting spaceId = h.waiting spaceId := by
  unfold Hub.entry
  split
  · rename_i w sends
    exact ⟨orderly, sends, rfl, rfl, rfl, rfl⟩
  · rename_i absent
    have sends : (h.spawnWebhookWorker spaceId).queues.lookup spaceId = some h.spawned :=
      AList.lookup_insert _
    refine ⟨orderly.spawn absent, sends, rfl, rfl, rfl, ?_⟩
    rw [waiting_eq_nil absent, waiting_eq sends (AList.lookup_insert _)]

theorem Orderly.announce (orderly : Orderly h) (spaceId : String) (batch : β) :
    Orderly (h.announce spaceId batch) ∧ (h.announce spaceId batch).taken = h.taken ∧
      ((h.announce spaceId batch).sent = h.sent ++ [(spaceId, batch)] ∧
          (h.announce spaceId batch).dropped = h.dropped ∨
        (h.announce spaceId batch).sent = h.sent ∧
          (h.announce spaceId batch).dropped = h.dropped ++ [(spaceId, batch)] ∧
          webhookQueue ≤ (h.waiting spaceId).length) := by
  obtain ⟨orderly, sends, sent, taken, dropped, waiting⟩ := orderly.entry spaceId
  rw [← waiting]
  unfold Hub.announce Hub.announceTries
  generalize h.entry spaceId = entry at *
  obtain ⟨w, h₁⟩ := entry
  obtain ⟨worker, held, rfl, alive⟩ := orderly.alive spaceId w sends
  dsimp only at *
  by_cases full : webhookQueue ≤ worker.queue.length
  · simp only [Hub.trySend, held, alive, full, Bool.false_eq_true, if_false, if_true]
    refine ⟨⟨orderly.registered, orderly.alive, orderly.empty, orderly.numbered, orderly.accounts,
      orderly.lost⟩, taken, .inr ⟨sent, by rw [dropped], ?_⟩⟩
    rwa [waiting_eq sends held]
  · simp only [Hub.trySend, held, alive, full, Bool.false_eq_true, if_false]
    refine ⟨orderly.work held alive rfl rfl alive rfl rfl rfl ?_ (fun _ _ => rfl) ?_, taken,
      .inl ⟨by rw [sent], dropped⟩⟩
    · intro id other
      simp [batchesOf_singleton, Ne.symm other]
    · have accounts := orderly.accounts worker.spaceId
      rw [waiting_eq sends held] at accounts
      simp [batchesOf_singleton, accounts]

end Orderly

/-! ## Runs -/

def Action.panics : Action β → Bool
  | .panic _ => true
  | _ => false

theorem step_orderly {h h' : Hub β} {a : Action β} (orderly : Orderly h) (calm : a.panics = false)
    (stepped : step h a = some h') : Orderly h' := by
  cases a with
  | announce spaceId batch =>
    cases stepped
    exact (orderly.announce spaceId batch).1
  | receive w =>
    simp only [step] at stepped
    split at stepped
    · rename_i spaceId batch queue held
      cases stepped
      refine orderly.work held rfl rfl rfl rfl rfl rfl rfl (fun _ _ => rfl) ?_ ?_
      · intro id other
        simp [batchesOf_singleton, Ne.symm other]
      · have accounts := orderly.accounts spaceId
        rw [waiting_eq (orderly.registered w _ held rfl) held] at accounts
        simpa [batchesOf_singleton, Hub.setWorker] using accounts
    · cases stepped
  | timeout w =>
    simp only [step] at stepped
    split at stepped
    · rename_i spaceId held
      cases stepped
      refine orderly.work held rfl rfl rfl rfl rfl rfl rfl (fun _ _ => rfl) (fun _ _ => rfl) ?_
      have accounts := orderly.accounts spaceId
      rwa [waiting_eq (orderly.registered w _ held rfl) held] at accounts
    · cases stepped
  | checkIdle w =>
    simp only [step] at stepped
    split at stepped
    · rename_i spaceId held
      cases stepped
      exact orderly.stop held rfl
    · rename_i spaceId batch queue held
      cases stepped
      refine orderly.work held rfl rfl rfl rfl rfl rfl rfl (fun _ _ => rfl) (fun _ _ => rfl) ?_
      have accounts := orderly.accounts spaceId
      rwa [waiting_eq (orderly.registered w _ held rfl) held] at accounts
    · cases stepped
  | receiveNone w =>
    -- Its entry is there as long as it has not stopped.
    simp only [step] at stepped
    split at stepped
    · rename_i spaceId held
      rw [if_pos (orderly.registered w _ held rfl)] at stepped
      cases stepped
    · cases stepped
  | delivered w =>
    simp only [step] at stepped
    split at stepped
    · rename_i spaceId queue batch held
      cases stepped
      refine orderly.work held rfl rfl rfl rfl rfl rfl rfl (fun _ _ => rfl) (fun _ _ => rfl) ?_
      have accounts := orderly.accounts spaceId
      rwa [waiting_eq (orderly.registered w _ held rfl) held] at accounts
    · cases stepped
  | panic w => cases calm

def announced (actions : List (Action β)) : List (String × β) :=
  actions.filterMap fun a =>
    match a with
    | .announce spaceId batch => some (spaceId, batch)
    | _ => none

theorem step_sent {h h' : Hub β} {a : Action β} (other : announced [a] = [])
    (stepped : step h a = some h') :
    h'.sent = h.sent ∧ h'.dropped = h.dropped ∧ h'.lost = h.lost := by
  cases a with
  | announce spaceId batch => cases other
  | _ =>
    simp only [step] at stepped
    grind [Hub.setWorker]

theorem run_orderly {actions : List (Action β)} {h : Hub β} (run : hub.run actions = some h)
    (calm : ∀ a ∈ actions, a.panics = false) :
    Orderly h ∧ (announced actions).Perm (h.sent ++ h.dropped) := by
  refine Machine.induct (P := fun actions h => (∀ a ∈ actions, a.panics = false) →
    Orderly h ∧ (announced actions).Perm (h.sent ++ h.dropped)) ?_ ?_ run calm
  · intro _
    exact ⟨⟨by simp [hub], by simp [hub], by simp [hub], by simp [hub], fun _ => rfl, rfl⟩, .refl _⟩
  · intro actions h a h' ih stepped calm
    rw [List.forall_mem_append] at calm
    obtain ⟨orderly, perm⟩ := ih calm.1
    refine ⟨step_orderly orderly (calm.2 a (List.mem_singleton_self a)) stepped, ?_⟩
    have split : announced (actions ++ [a]) = announced actions ++ announced [a] :=
      List.filterMap_append
    rw [split]
    by_cases other : announced [a] = []
    · obtain ⟨sent, dropped, -⟩ := step_sent other stepped
      rw [other, sent, dropped, List.append_nil]
      exact perm
    · cases a with
      | announce spaceId batch =>
        cases stepped
        have added : (announced actions ++ [(spaceId, batch)]).Perm
            (h.sent ++ h.dropped ++ [(spaceId, batch)]) := perm.append_right _
        obtain ⟨-, -, ⟨sent, dropped⟩ | ⟨sent, dropped, -⟩⟩ := orderly.announce spaceId batch
        · rw [sent, dropped]
          refine added.trans ?_
          rw [List.append_assoc, List.append_assoc]
          exact List.perm_append_comm.append_left _
        · rw [sent, dropped, ← List.append_assoc]
          exact added
      | _ => exact absurd rfl other

/-- A worker of the space holds batches that are not delivered. -/
def Hub.Busy (h : Hub β) (spaceId : String) (w : Nat) : Prop :=
  ∃ worker, h.workers.lookup w = some worker ∧ worker.spaceId = spaceId ∧
    (worker.queue ≠ [] ∨ ∃ batch, worker.phase = .delivering batch)

theorem Orderly.sends_of_busy {h : Hub β} {spaceId : String} {w : Nat} (orderly : Orderly h)
    (busy : h.Busy spaceId w) : h.queues.lookup spaceId = some w := by
  obtain ⟨worker, held, rfl, batches⟩ := busy
  refine orderly.registered w worker held ?_
  cases stopped : worker.phase.isStopped with
  | false => rfl
  | true =>
    rcases batches with queued | ⟨batch, delivering⟩
    · exact absurd (orderly.empty w worker held stopped) queued
    · simp [delivering, Phase.isStopped] at stopped

/-! ## Progress -/

def Action.worker : Action β → Option Nat
  | .announce _ _ => none
  | .receive w | .timeout w | .checkIdle w | .receiveNone w | .delivered w | .panic w => some w

/-- How many steps a worker is from its next `recv`. -/
def Phase.distance : Phase β → Nat
  | .receiving | .stopped => 0
  | .idled | .delivering _ => 1

/-- A bound on the steps of the worker until `n` batches of the space are taken. -/
def Hub.rank (h : Hub β) (spaceId : String) (w n : Nat) : Nat :=
  2 * (n - (batchesOf spaceId h.taken).length) +
    (h.workers.lookup w).elim 0 fun worker => worker.phase.distance

section Progress

variable {h h' : Hub β} {spaceId : String} {w n : Nat} {worker : Worker β}

theorem Orderly.announce_keeps (orderly : Orderly h) (other : String) (batch : β)
    (sends : h.queues.lookup spaceId = some w) (held : h.workers.lookup w = some worker) :
    (h.announce other batch).queues.lookup spaceId = some w ∧
      ∃ queue, (h.announce other batch).workers.lookup w = some { worker with queue } := by
  have entered : (h.entry other).2.queues.lookup spaceId = some w ∧
      (h.entry other).2.workers.lookup w = some worker := by
    unfold Hub.entry
    split
    · exact ⟨sends, held⟩
    · rename_i absent
      have apart : spaceId ≠ other := by
        rintro rfl
        rw [sends] at absent
        cases absent
      have old : w ≠ h.spawned := by
        rintro rfl
        rw [orderly.numbered _ le_rfl] at held
        cases held
      exact ⟨(AList.lookup_insert_ne apart).trans sends, (AList.lookup_insert_ne old).trans held⟩
  obtain ⟨orderly, entry, -⟩ := orderly.entry other
  unfold Hub.announce Hub.announceTries
  generalize h.entry other = entry' at *
  obtain ⟨v, h₁⟩ := entry'
  obtain ⟨worker', held', rfl, alive⟩ := orderly.alive other v entry
  dsimp only at *
  by_cases full : webhookQueue ≤ worker'.queue.length
  · simp only [Hub.trySend, held', alive, full, Bool.false_eq_true, if_false, if_true]
    exact ⟨entered.1, worker.queue, entered.2⟩
  · simp only [Hub.trySend, held', alive, full, Bool.false_eq_true, if_false]
    refine ⟨entered.1, ?_⟩
    by_cases same : w = v
    · subst same
      rw [entered.2] at held'
      cases held'
      exact ⟨_, AList.lookup_insert _⟩
    · exact ⟨worker.queue, (AList.lookup_insert_ne same).trans entered.2⟩

theorem Orderly.spaceId_ne {v : Nat} {worker' : Worker β} (orderly : Orderly h)
    (sends : h.queues.lookup spaceId = some w) (held : h.workers.lookup v = some worker')
    (alive : worker'.phase.isStopped = false) (other : v ≠ w) : worker'.spaceId ≠ spaceId := by
  rintro rfl
  exact other (Option.some.inj ((orderly.registered v worker' held alive).symm.trans sends))

theorem rank_other {a : Action β} {v : Nat} {worker' : Worker β} (other : v ≠ w)
    (its : a.worker = some v) (workers : h'.workers = h.workers.insert v worker')
    (taken : batchesOf spaceId h'.taken = batchesOf spaceId h.taken) :
    h'.rank spaceId w n + [a].countP (·.worker = some w) ≤ h.rank spaceId w n := by
  rw [Hub.rank, Hub.rank, taken, workers, AList.lookup_insert_ne (Ne.symm other)]
  simp [its, other]

/-- A step leaves the space its worker, and a step of that worker takes one off the rank. -/
def Closer (h h' : Hub β) (a : Action β) (spaceId : String) (w n : Nat) : Prop :=
  h'.queues.lookup spaceId = some w ∧
    h'.rank spaceId w n + [a].countP (·.worker = some w) ≤ h.rank spaceId w n

theorem Orderly.receiveNone_eq_none {v : Nat} (orderly : Orderly h) :
    step h (.receiveNone v) = none := by
  simp only [step]
  split
  · rename_i held
    rw [if_pos (orderly.registered v _ held rfl)]
  · rfl

section Actions

variable {queue : List β} {phase : Phase β} {v : Nat}

theorem rank_eq (held : h.workers.lookup w = some ⟨spaceId, queue, phase⟩) :
    h.rank spaceId w n = 2 * (n - (batchesOf spaceId h.taken).length) + phase.distance := by
  simp [Hub.rank, held]

variable (orderly : Orderly h) (sends : h.queues.lookup spaceId = some w)
  (held : h.workers.lookup w = some ⟨spaceId, queue, phase⟩)

include orderly sends held

theorem closer_announce (other : String) (batch : β) :
    Closer h (h.announce other batch) (.announce other batch) spaceId w n := by
  obtain ⟨kept, queue', held'⟩ := orderly.announce_keeps other batch sends held
  obtain ⟨-, taken, -⟩ := orderly.announce other batch
  refine ⟨kept, ?_⟩
  simp [Hub.rank, held', taken, held, Action.worker]

theorem closer_receive (left : (batchesOf spaceId h.taken).length < n)
    (stepped : step h (.receive v) = some h') : Closer h h' (.receive v) spaceId w n := by
  simp only [step] at stepped
  split at stepped
  · rename_i space' batch rest held'
    cases stepped
    refine ⟨sends, ?_⟩
    by_cases same : v = w
    · subst same
      rw [held] at held'
      cases held'
      rw [rank_eq held]
      simp [Hub.rank, Hub.setWorker, batchesOf_singleton, Phase.distance, Action.worker]
      omega
    · have apart : space' ≠ spaceId := orderly.spaceId_ne sends held' rfl same
      exact rank_other same rfl rfl (by simp [batchesOf_singleton, apart])
  · cases stepped

omit orderly in
theorem closer_timeout (queued : queue ≠ []) (stepped : step h (.timeout v) = some h') :
    Closer h h' (.timeout v) spaceId w n := by
  simp only [step] at stepped
  split at stepped
  · rename_i space' held'
    cases stepped
    refine ⟨sends, ?_⟩
    by_cases same : v = w
    · subst same
      rw [held] at held'
      cases held'
      exact absurd rfl queued
    · exact rank_other same rfl rfl rfl
  · cases stepped

theorem closer_checkIdle (queued : queue ≠ []) (stepped : step h (.checkIdle v) = some h') :
    Closer h h' (.checkIdle v) spaceId w n := by
  simp only [step] at stepped
  split at stepped
  · rename_i space' held'
    cases stepped
    have same : v ≠ w := by
      rintro rfl
      rw [held] at held'
      cases held'
      exact queued rfl
    have apart : space' ≠ spaceId := orderly.spaceId_ne sends held' rfl same
    refine ⟨(AList.lookup_erase_ne (Ne.symm apart)).trans sends, ?_⟩
    exact rank_other same rfl rfl rfl
  · rename_i space' batch rest held'
    cases stepped
    refine ⟨sends, ?_⟩
    by_cases same : v = w
    · subst same
      rw [held] at held'
      cases held'
      rw [rank_eq held]
      simp [Hub.rank, Hub.setWorker, Phase.distance, Action.worker]
    · exact rank_other same rfl rfl rfl
  · cases stepped

omit orderly in
theorem closer_delivered (stepped : step h (.delivered v) = some h') :
    Closer h h' (.delivered v) spaceId w n := by
  simp only [step] at stepped
  split at stepped
  · rename_i space' rest batch held'
    cases stepped
    refine ⟨sends, ?_⟩
    by_cases same : v = w
    · subst same
      rw [held] at held'
      cases held'
      rw [rank_eq held]
      simp [Hub.rank, Hub.setWorker, Phase.distance, Action.worker]
    · exact rank_other same rfl rfl rfl
  · cases stepped

end Actions

theorem step_rank {a : Action β} (orderly : Orderly h) (calm : a.panics = false)
    (stepped : step h a = some h') (sends : h.queues.lookup spaceId = some w)
    (left : (batchesOf spaceId h.taken).length < n)
    (enough : n ≤ (batchesOf spaceId h.sent).length) : Closer h h' a spaceId w n := by
  obtain ⟨⟨space, queue, phase⟩, held, same, alive⟩ := orderly.alive spaceId w sends
  obtain rfl : space = spaceId := same
  have queued : queue ≠ [] := by
    rintro rfl
    have accounts := orderly.accounts space
    rw [waiting_eq sends held, List.append_nil] at accounts
    rw [accounts] at enough
    omega
  cases a with
  | announce other batch =>
    cases stepped
    exact closer_announce orderly sends held other batch
  | receive => exact closer_receive orderly sends held left stepped
  | timeout => exact closer_timeout sends held queued stepped
  | checkIdle => exact closer_checkIdle orderly sends held queued stepped
  | receiveNone => cases orderly.receiveNone_eq_none.symm.trans stepped
  | delivered => exact closer_delivered sends held stepped
  | panic => cases calm

theorem step_grows (spaceId : String) {a : Action β} (orderly : Orderly h)
    (stepped : step h a = some h') :
    batchesOf spaceId h.taken <+: batchesOf spaceId h'.taken ∧
      batchesOf spaceId h.sent <+: batchesOf spaceId h'.sent := by
  cases a with
  | announce other batch =>
    cases stepped
    obtain ⟨-, taken, ⟨sent, -⟩ | ⟨sent, -⟩⟩ := orderly.announce other batch
    · rw [taken, sent, batchesOf_append]
      exact ⟨List.prefix_rfl, List.prefix_append _ _⟩
    · rw [taken, sent]
      exact ⟨List.prefix_rfl, List.prefix_rfl⟩
  | receive v =>
    simp only [step] at stepped
    split at stepped
    · cases stepped
      rw [batchesOf_append]
      exact ⟨List.prefix_append _ _, List.prefix_rfl⟩
    · cases stepped
  | _ =>
    simp only [step] at stepped
    grind [Hub.setWorker]

theorem runFrom_grows (spaceId : String) {more : List (Action β)} (orderly : Orderly h)
    (run : hub.runFrom h more = some h') (calm : ∀ a ∈ more, a.panics = false) :
    Orderly h' ∧ batchesOf spaceId h.taken <+: batchesOf spaceId h'.taken ∧
      batchesOf spaceId h.sent <+: batchesOf spaceId h'.sent := by
  induction more generalizing h with
  | nil =>
    cases run
    exact ⟨orderly, List.prefix_rfl, List.prefix_rfl⟩
  | cons a more ih =>
    obtain ⟨u, stepped, rest⟩ := Machine.runFrom_cons.mp run
    obtain ⟨first, calm⟩ := List.forall_mem_cons.mp calm
    obtain ⟨taken, sent⟩ := step_grows spaceId orderly stepped
    obtain ⟨orderly, taken', sent'⟩ := ih (step_orderly orderly first stepped) rest calm
    exact ⟨orderly, taken.trans taken', sent.trans sent'⟩

theorem length_taken {more : List (Action β)} (orderly : Orderly h)
    (run : hub.runFrom h more = some h') (calm : ∀ a ∈ more, a.panics = false)
    (sends : h.queues.lookup spaceId = some w) (enough : n ≤ (batchesOf spaceId h.sent).length)
    (steps : h.rank spaceId w n < more.countP (·.worker = some w)) :
    n ≤ (batchesOf spaceId h'.taken).length := by
  induction more generalizing h with
  | nil => simp at steps
  | cons a more ih =>
    obtain ⟨u, stepped, rest⟩ := Machine.runFrom_cons.mp run
    obtain ⟨first, calm'⟩ := List.forall_mem_cons.mp calm
    by_cases left : (batchesOf spaceId h.taken).length < n
    · obtain ⟨sends', rank⟩ := step_rank orderly first stepped sends left enough
      have grown := (step_grows spaceId orderly stepped).2.length_le
      refine ih (step_orderly orderly first stepped) rest calm' sends' (enough.trans grown) ?_
      have split : (a :: more).countP (·.worker = some w) =
          [a].countP (·.worker = some w) + more.countP (·.worker = some w) := by
        rw [← List.countP_append, List.singleton_append]
      omega
    · have grown := (runFrom_grows spaceId orderly run calm).2.1.length_le
      omega

theorem Orderly.enabled (orderly : Orderly h) (sends : h.queues.lookup spaceId = some w)
    (queued : h.waiting spaceId ≠ []) :
    ∃ a : Action β, a.worker = some w ∧ a.panics = false ∧ (step h a).isSome = true := by
  obtain ⟨⟨space, queue, phase⟩, held, -, alive⟩ := orderly.alive spaceId w sends
  rw [waiting_eq sends held] at queued
  obtain ⟨batch, rest, rfl⟩ := List.exists_cons_of_ne_nil queued
  cases phase with
  | receiving => exact ⟨.receive w, rfl, rfl, by simp [step, held]⟩
  | idled => exact ⟨.checkIdle w, rfl, rfl, by simp [step, held]⟩
  | delivering batch => exact ⟨.delivered w, rfl, rfl, by simp [step, held]⟩
  | stopped => cases alive

theorem Orderly.all_taken {more : List (Action β)} (orderly : Orderly h)
    (run : hub.runFrom h more = some h') (calm : ∀ a ∈ more, a.panics = false)
    (sends : h.queues.lookup spaceId = some w)
    (steps : 2 * (h.waiting spaceId).length + 2 ≤ more.countP (·.worker = some w)) :
    batchesOf spaceId h.sent <+: batchesOf spaceId h'.taken := by
  obtain ⟨orderly', -, sent⟩ := runFrom_grows spaceId orderly run calm
  have length : (batchesOf spaceId h.sent).length ≤ (batchesOf spaceId h'.taken).length := by
    refine length_taken orderly run calm sends le_rfl (lt_of_lt_of_le ?_ steps)
    obtain ⟨worker, held, -⟩ := orderly.alive spaceId w sends
    have distance : worker.phase.distance ≤ 1 := by
      cases worker.phase <;> simp [Phase.distance]
    rw [Hub.rank, held, orderly.accounts spaceId, List.length_append]
    simp only [Option.elim_some]
    omega
  have all : batchesOf spaceId h'.taken <+: batchesOf spaceId h'.sent := by
    rw [orderly'.accounts spaceId]
    exact List.prefix_append _ _
  exact List.prefix_of_prefix_length_le sent all length

end Progress

/-- After any run in which no worker panics, at most one worker of a space holds undelivered
batches. Each announced batch was sent to the worker of its space, or dropped with its queue full.
What was sent for a space is, in order, what workers have taken and what waits in the queue of one
worker. That worker can go on, and however the run goes on, it has taken all of it after twice as
many steps of its own and two. -/
theorem webhook_protocol {actions : List (Action β)} {h : Hub β} (run : hub.run actions = some h)
    (calm : ∀ a ∈ actions, a.panics = false) :
    (∀ spaceId w w', h.Busy spaceId w → h.Busy spaceId w' → w = w') ∧
    (announced actions).Perm (h.sent ++ h.dropped) ∧
    (∀ spaceId batch, (h.announce spaceId batch).sent = h.sent ++ [(spaceId, batch)] ∨
      (h.announce spaceId batch).dropped = h.dropped ++ [(spaceId, batch)] ∧
        webhookQueue ≤ (h.waiting spaceId).length) ∧
    (∀ spaceId, batchesOf spaceId h.sent = batchesOf spaceId h.taken ++ h.waiting spaceId) ∧
    ∀ spaceId, h.waiting spaceId ≠ [] → ∃ w, h.Busy spaceId w ∧
      (∃ a : Action β, a.worker = some w ∧ a.panics = false ∧ (step h a).isSome = true) ∧
      ∀ more h', hub.runFrom h more = some h' → (∀ a ∈ more, a.panics = false) →
        2 * (h.waiting spaceId).length + 2 ≤ more.countP (·.worker = some w) →
          batchesOf spaceId h.sent <+: batchesOf spaceId h'.taken := by
  obtain ⟨orderly, perm⟩ := run_orderly run calm
  refine ⟨fun spaceId w w' busy busy' => ?_, perm, fun spaceId batch => ?_, orderly.accounts,
    fun spaceId queued => ?_⟩
  · exact Option.some.inj ((orderly.sends_of_busy busy).symm.trans (orderly.sends_of_busy busy'))
  · exact (orderly.announce spaceId batch).2.2.imp And.left And.right
  · cases sends : h.queues.lookup spaceId with
    | none => exact absurd (waiting_eq_nil sends) queued
    | some w =>
      obtain ⟨worker, held, space, -⟩ := orderly.alive spaceId w sends
      refine ⟨w, ⟨worker, held, space, .inl ?_⟩, orderly.enabled sends queued,
        fun more h' run' calm' => orderly.all_taken run' calm' sends⟩
      rwa [← waiting_eq sends held]

def lateBatches : List (Action Nat) :=
  [.announce "forum" 1, .receive 0, .delivered 0, .timeout 0, .announce "forum" 2, .checkIdle 0,
    .receive 0, .delivered 0, .timeout 0, .checkIdle 0, .announce "forum" 3]

theorem webhook_protocol_lateBatches : ∃ h, hub.run lateBatches = some h ∧
    batchesOf "forum" h.taken = [1, 2] ∧ h.waiting "forum" = [3] ∧
    batchesOf "forum" h.sent = [1, 2] ++ [3] := by
  obtain ⟨h, run, checked⟩ := (Option.any_eq_true _ _).mp (by decide +kernel :
    (hub.run lateBatches).any (fun h => batchesOf "forum" h.taken = [1, 2] ∧
      h.waiting "forum" = [3]) = true)
  obtain ⟨taken, waiting⟩ := of_decide_eq_true checked
  obtain ⟨-, -, -, accounts, -⟩ := webhook_protocol run (by decide)
  refine ⟨h, run, taken, waiting, ?_⟩
  rw [accounts, taken, waiting]

end HappyView.Spaces.Webhooks
