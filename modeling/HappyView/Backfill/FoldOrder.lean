import HappyView.Backfill.BlockAccounting
import HappyView.Foundation.WriteBehind

/-!
# The order in which the fold hands events on

The fold is a buffer that holds creates and updates back and lets deletes and markers pass. A
delete of a buffered record and a marker of a buffered DID flush first, so that for every record
the operations on it and the markers of its DID reach the host in the order of the events.
-/

namespace HappyView.Backfill

open HappyView.Foundation HappyView.Ingest HappyView.Records
open HappyView.Consumer (Event EventKind Commit markerEvent)

/-! ## What the events ask for -/

section Operations

variable (jobId : String) (tracked : List String)

/-- The host operation that an event stands for: identity events and commits without a record
have none. -/
def operation (event : Event EventKind) : Option SourceEvent :=
  match event.kind with
  | .commit commit =>
    if commit.operation = "delete" then some (deleteEvent jobId event commit)
    else commit.record.map (upsertEvent jobId event commit)
  | .account .. | .sync _ =>
    markerEvent event.did event.cursor event.kind (some event.cursor.timeUs) tracked
  | .identity _ => none

/-- The operations on a record and the markers of its DID. -/
def concerns (key : RecordKey) : SourceEvent → Bool
  | .record ev => ev.key.did = key.did ∧ ev.key.uri = key.uri
  | .account ev => ev.did = key.did
  | .sync ev => ev.did = key.did
  | .identity .. => false

/-! ## Calls -/

inductive FoldCall where
  | apply (event : Event EventKind)
  | flush

def FoldCall.perform : FoldCall → Replay Unit
  | .apply event => Backfill.apply jobId tracked event
  | .flush => Backfill.flush jobId

def performAll : List FoldCall → Replay Unit
  | [] => pure ()
  | call :: calls => do
    call.perform jobId tracked
    performAll calls

def FoldCall.event : FoldCall → Option (Event EventKind)
  | .apply event => some event
  | .flush => none

/-- There are `n` answers, and no answer makes a call fail. -/
structure Willing (n : Nat) (script : List Reply) : Prop where
  enough : n ≤ script.length
  obliging : ∀ reply ∈ script, reply.error = none ∧
    ∀ source, (reply.outcome source).isFailure = false ∧ reply.outcome source ≠ .invalid

end Operations

variable {jobId : String} {tracked : List String} {w : World}

/-- The events the host has been handed, and those that the fold holds back. -/
def World.buffer (jobId : String) (w : World) : Buffer SourceEvent :=
  ⟨w.handed, w.run.fold.pending.filterMap (bufferedEvent jobId)⟩

/-! ## Procedures that ask a number of questions -/

theorem Willing.mono {m n : Nat} {script : List Reply} (h : Willing n script) (le : m ≤ n) :
    Willing m script :=
  ⟨le.trans h.enough, h.obliging⟩

/-- A procedure that asks at most `cost` questions, stops only if one of them is refused, and
returns with `post`. -/
def Costs (cost : Nat) (x : Replay Unit) (post : World → Prop) (w : World) : Prop :=
  wp x (fun _ w' => post w' ∧ ∀ n, Willing (cost + n) w.script → Willing n w'.script)
    (fun _ => ¬ Willing cost w.script) w

theorem costs_pure {post : World → Prop} (h : post w) : Costs 0 (pure ()) post w :=
  ⟨h, fun n willing => by simpa using willing⟩

theorem costs_mono {cost cost' : Nat} {x : Replay Unit} {post post' : World → Prop}
    (h : Costs cost x post w) (le : cost ≤ cost') (weaker : ∀ w', post w' → post' w') :
    Costs cost' x post' w := by
  refine wp_mono h (fun _ w' done => ?_) fun _ stopped willing => stopped (willing.mono le)
  exact ⟨weaker w' done.1, fun n willing => done.2 n (willing.mono (by omega))⟩

theorem costs_bind {cost cost' : Nat} {x y : Replay Unit} {post post' : World → Prop}
    (first : Costs cost x post w) (next : ∀ w', post w' → Costs cost' y post' w') :
    Costs (cost + cost') (x >>= fun _ => y) post' w := by
  refine wp_bind.mpr (wp_mono first (fun _ w' done => ?_) fun _ stopped willing =>
    stopped (willing.mono (by omega)))
  refine wp_mono (next w' done.1) (fun _ w'' further => ?_) fun _ stopped willing =>
    stopped (done.2 cost' willing)
  exact ⟨further.1, fun n willing => further.2 n (done.2 (cost' + n) (willing.mono (by omega)))⟩

theorem costs_ingest {events : List SourceEvent} {x : Reply → Replay Unit} {post : World → Prop}
    (next : ∀ reply rest, w.script = reply :: rest →
      wp (x reply) (fun _ w' => post w' ∧ w'.script = rest) (fun _ => ¬ Willing 1 w.script)
        { w with handed := w.handed ++ events, script := rest }) :
    Costs 1 (ingest events >>= x) post w := by
  refine wp_bind.mpr (wp_bind.mpr (wp_modify.mpr (wp_ask.mpr ?_)))
  dsimp only
  cases asked : w.script with
  | nil => exact fun willing => by simpa using willing.enough
  | cons reply rest =>
    rw [asked] at next
    refine wp_mono (next reply rest rfl) (fun _ w' done => ⟨done.1, fun n willing => ?_⟩)
      fun _ stopped => stopped
    obtain ⟨enough, obliging⟩ := willing
    rw [List.length_cons] at enough
    rw [done.2]
    exact ⟨by omega, fun found mem => obliging found (List.mem_cons_of_mem _ mem)⟩

/-! ## The fold as a buffer -/

theorem flush_costs :
    Costs 1 (flush jobId) (fun w' => w'.buffer jobId = (w.buffer jobId).release ∧
      w'.run.fold.pending = []) w := by
  unfold flush
  refine wp_bind.mpr (wp_get.mpr ?_)
  dsimp only
  split
  next empty =>
    have empty := List.isEmpty_iff.mp empty
    refine costs_mono (costs_pure ⟨?_, empty⟩) (Nat.zero_le 1) fun _ h => h
    simp [World.buffer, Buffer.release, empty]
  -- the buffer is taken before the host is asked
  refine wp_bind.mpr (wp_modify.mpr ?_)
  refine costs_ingest (w := { w with run := { w.run with fold := ⟨[]⟩ } })
    fun reply rest asked => ?_
  have asked : w.script = reply :: rest := asked
  have obliging (willing : Willing 1 w.script) := willing.obliging reply (by simp [asked])
  split
  next e error => exact fun willing => by simp [(obliging willing).1] at error
  split
  next failed =>
    intro willing
    obtain ⟨outcome, mem, failure⟩ := List.any_eq_true.mp failed
    obtain ⟨event, -, rfl⟩ := List.mem_map.mp mem
    cases source : bufferedEvent jobId event with
    | none => simp [source, IngestOutcome.isFailure] at failure
    | some source' => simp [source, ((obliging willing).2 source').1] at failure
  exact ⟨⟨by simp [World.buffer, Buffer.release], rfl⟩, rfl⟩

theorem ingestOne_costs {event : Event EventKind} {source : SourceEvent}
    {refused : IngestOutcome → Bool} {message : Option String → String}
    (fails : ∀ outcome, refused outcome = true → outcome.isFailure = true ∨ outcome = .invalid) :
    Costs 1 (ingestOne event source refused message)
      (fun w' => w'.buffer jobId = (w.buffer jobId).pass source) w := by
  refine costs_ingest fun reply rest asked => ?_
  split
  next refuses =>
    intro willing
    have obliging := (willing.obliging reply (by simp [asked])).2 source
    rcases fails _ refuses with failure | invalid
    · simp [obliging.1] at failure
    · exact obliging.2 invalid
  exact ⟨rfl, rfl⟩

/-! ## Order -/

section Order

variable {key : RecordKey} {came : List SourceEvent} {event : Event EventKind}

def Ordered (jobId : String) (key : RecordKey) (came : List SourceEvent) (w : World) : Prop :=
  (w.buffer jobId).InOrder (concerns key) came

theorem bufferedEvent_concerns {source : SourceEvent}
    (buffered : bufferedEvent jobId event = some source) (about : concerns key source = true) :
    event.did = key.did ∧ pendingUri event = some key.uri := by
  unfold bufferedEvent at buffered
  unfold pendingUri
  split at buffered
  · rename_i commit kind
    obtain ⟨record, -, rfl⟩ := Option.map_eq_some_iff.mp buffered
    obtain ⟨did, uri⟩ := of_decide_eq_true about
    exact ⟨did, congrArg some uri⟩
  · cases buffered

theorem flush_ordered (ordered : Ordered jobId key came w) :
    Costs 1 (flush jobId) (fun w' => Ordered jobId key came w' ∧ w'.run.fold.pending = []) w := by
  refine costs_mono flush_costs le_rfl fun w' done => ⟨?_, done.2⟩
  rw [Ordered, done.1]
  exact ordered.release

theorem flushIf_ordered (ordered : Ordered jobId key came w) {rest : Replay Unit}
    {post : World → Prop} (clash : Event EventKind → Bool)
    (next : ∀ w', Ordered jobId key came w' →
      (∀ held ∈ w'.run.fold.pending, clash held = false) → Costs 1 rest post w') :
    Costs 2 (if w.run.fold.pending.any clash = true then do flush jobId; rest else rest) post
      w := by
  split
  next clashes =>
    exact costs_bind (flush_ordered ordered) fun w' done => next w' done.1 (by simp [done.2])
  next clear =>
    refine costs_mono (next w ordered fun held mem => ?_) (by omega) fun _ h => h
    simpa using fun clashes => clear (List.any_eq_true.mpr ⟨held, mem, clashes⟩)

theorem ingestOne_ordered (ordered : Ordered jobId key came w) {source : SourceEvent}
    {refused : IngestOutcome → Bool} {message : Option String → String}
    (clear : concerns key source = true → ∀ held ∈ w.run.fold.pending,
      held.did = key.did → pendingUri held ≠ some key.uri)
    (fails : ∀ outcome, refused outcome = true → outcome.isFailure = true ∨ outcome = .invalid) :
    Costs 1 (ingestOne event source refused message) (Ordered jobId key (came ++ [source])) w := by
  have costs : Costs 1 (ingestOne event source refused message)
      (fun w' => w'.buffer jobId = (w.buffer jobId).pass source) w := ingestOne_costs fails
  refine costs_mono costs le_rfl fun w' passed => ?_
  rw [Ordered, passed]
  refine Buffer.InOrder.pass ordered fun own held mem => ?_
  obtain ⟨waiting, listed, buffered⟩ := List.mem_filterMap.mp mem
  by_contra other
  obtain ⟨did, uri⟩ := bufferedEvent_concerns buffered (by simpa using other)
  exact clear own waiting listed did uri

theorem hold_ordered (ordered : Ordered jobId key came w) {source : SourceEvent}
    (buffered : bufferedEvent jobId event = some source) :
    Costs 0 (setPending (w.run.fold.pending ++ [event]))
      (Ordered jobId key (came ++ [source])) w := by
  refine ⟨?_, fun n willing => by simpa using willing⟩
  have held := Buffer.InOrder.hold ordered source
  simpa [Ordered, World.buffer, Buffer.hold, buffered] using held

theorem skip_ordered (ordered : Ordered jobId key came w)
    (none : operation jobId tracked event = none) :
    Costs 0 (pure ()) (Ordered jobId key (came ++ (operation jobId tracked event).toList)) w :=
  costs_pure (by simpa [none] using ordered)

theorem marker_ordered (ordered : Ordered jobId key came w) {marker : SourceEvent}
    {refused : IngestOutcome → Bool} {message : Option String → String}
    (about : concerns key marker = true → event.did = key.did)
    (fails : ∀ outcome, refused outcome = true → outcome.isFailure = true ∨ outcome = .invalid) :
    Costs 2 (if w.run.fold.pending.any (·.did == event.did) = true then do
        flush jobId
        ingestOne event marker refused message
      else ingestOne event marker refused message) (Ordered jobId key (came ++ [marker])) w := by
  refine flushIf_ordered ordered (·.did == event.did) fun w' ordered clear => ?_
  refine ingestOne_ordered ordered (fun own held mem did => ?_) fails
  have away := clear held mem
  rw [did, about own] at away
  simp at away

theorem apply_ordered (ordered : Ordered jobId key came w) :
    Costs 2 (apply jobId tracked event)
      (Ordered jobId key (came ++ (operation jobId tracked event).toList)) w := by
  unfold apply
  refine wp_bind.mpr (wp_get.mpr ?_)
  cases kind : event.kind with
  | commit commit =>
    dsimp only
    split
    next delete =>
      have asks : operation jobId tracked event = some (deleteEvent jobId event commit) := by
        simp [operation, kind, delete]
      rw [asks]
      refine flushIf_ordered ordered (fun buffered => pendingUri buffered == some _)
        fun w' ordered clear => ?_
      refine ingestOne_ordered ordered (fun own held mem _ uri => ?_) fun _ => .inl
      have away := clear held mem
      rw [uri, ← (of_decide_eq_true own).2] at away
      simp at away
    next notDelete =>
      cases body : commit.record with
      | none =>
        refine costs_mono (skip_ordered ordered ?_) (Nat.zero_le 2) fun _ h => h
        simp [operation, kind, notDelete, body]
      | some record =>
        have asks : operation jobId tracked event =
            some (upsertEvent jobId event commit record) := by
          simp [operation, kind, notDelete, body]
        have buffered : bufferedEvent jobId event =
            some (upsertEvent jobId event commit record) := by
          simp [bufferedEvent, kind, body]
        rw [asks]
        refine costs_mono (costs_bind (hold_ordered ordered buffered) fun w' ordered => ?_)
          (by omega : 0 + 1 ≤ 2) fun _ h => h
        split
        · exact costs_mono (flush_ordered ordered) le_rfl fun _ h => h.1
        · exact costs_mono (costs_pure ordered) (Nat.zero_le 1) fun _ h => h
  | account active status =>
    rw [show operation jobId tracked event = _ by simp only [operation, kind]; rfl]
    refine marker_ordered ordered of_decide_eq_true fun outcome refused => ?_
    simpa using refused
  | sync rev =>
    rw [show operation jobId tracked event = _ by simp only [operation, kind]; rfl]
    refine marker_ordered ordered of_decide_eq_true fun outcome refused => ?_
    simpa using refused
  | identity handle =>
    refine costs_mono (skip_ordered ordered ?_) (Nat.zero_le 2) fun _ h => h
    simp [operation, kind]

def FoldCall.operations (jobId : String) (tracked : List String) (call : FoldCall) :
    List SourceEvent :=
  (call.event.bind (operation jobId tracked)).toList

theorem perform_ordered (ordered : Ordered jobId key came w) (call : FoldCall) :
    Costs 2 (call.perform jobId tracked)
      (Ordered jobId key (came ++ call.operations jobId tracked)) w := by
  cases call with
  | apply event => exact apply_ordered ordered
  | flush =>
    refine costs_mono (flush_ordered ordered) (by omega) fun w' done => ?_
    simpa [FoldCall.operations, FoldCall.event] using done.1

theorem performAll_ordered (ordered : Ordered jobId key came w) (calls : List FoldCall) :
    Costs (2 * calls.length + 2) (performAll jobId tracked (calls ++ [.flush]))
      (fun w' => Ordered jobId key (came ++ calls.flatMap (·.operations jobId tracked)) w' ∧
        w'.run.fold.pending = []) w := by
  induction calls generalizing came w with
  | nil =>
    refine costs_mono (costs_bind (flush_ordered ordered) fun w' done => costs_pure done)
      (by simp) fun w' done => ?_
    simpa using done
  | cons call calls ih =>
    refine costs_mono (costs_bind (perform_ordered ordered call) fun w' ordered => ih ordered)
      (by simp only [List.length_cons]; omega) fun w' done => ?_
    simpa using done

theorem flatMap_operations (calls : List FoldCall) :
    calls.flatMap (·.operations jobId tracked) =
      (calls.filterMap FoldCall.event).filterMap (operation jobId tracked) := by
  induction calls with
  | nil => rfl
  | cons call calls ih =>
    rw [List.flatMap_cons, ih]
    cases call with
    | flush => rfl
    | apply event =>
      cases asks : operation jobId tracked event <;>
        simp [FoldCall.operations, FoldCall.event, asks]

end Order

/-- Whatever events and flushes are given to a new fold, with a flush at the end: if no call of
the host fails, then for every record the operations on it and the markers of its DID that the
host was handed are those of the events, in their order and each once. With a world that answers
and lets no call fail, the calls do return. -/
theorem fold_order (jobId : String) (tracked : List String) (key : RecordKey)
    (calls : List FoldCall) (w : World) (fresh : w.handed = [] ∧ w.run.fold.pending = []) :
    (∀ w', (performAll jobId tracked (calls ++ [.flush])).run w = (.ok (), w') →
      w'.handed.filter (concerns key) =
        ((calls.filterMap FoldCall.event).filterMap (operation jobId tracked)).filter
          (concerns key)) ∧
    (Willing (2 * calls.length + 2) w.script →
      ∃ w', (performAll jobId tracked (calls ++ [.flush])).run w = (.ok (), w')) := by
  have new : Ordered jobId key [] w := by
    rw [Ordered, World.buffer, fresh.1, fresh.2]
    exact Buffer.inOrder_empty _
  have costs : Costs _ (performAll jobId tracked (calls ++ [.flush])) _ w :=
    performAll_ordered new calls
  unfold Costs wp at costs
  refine ⟨fun w' returned => ?_, fun willing => ?_⟩
  · rw [returned] at costs
    obtain ⟨⟨ordered, empty⟩, -⟩ := costs
    have sent := Buffer.InOrder.sent_of_empty ordered (by simp [World.buffer, empty])
    rw [List.nil_append, flatMap_operations] at sent
    exact sent
  · split at costs
    · rename_i w' returned
      exact ⟨w', returned⟩
    · exact absurd willing costs

def postCalls : List FoldCall :=
  let event (did : String) (seq : Nat) (kind : EventKind) : FoldCall :=
    .apply ⟨did, .v2 seq seq, kind⟩
  let post (operation : String) : EventKind :=
    .commit ⟨none, operation, "app.post", "1", some "text", none⟩
  [event "did:plc:a" 1 (post "create"), event "did:plc:b" 2 (post "create"),
    event "did:plc:a" 3 (post "update"), event "did:plc:a" 4 (.account false (some "deleted"))]

def helpfulWorld : World where
  db := { sweep := ⟨.commits, ["app.post"], none, 0, 0, none, false⟩ }
  script := List.replicate 10 {}

theorem fold_order_posts :
    ∃ w', (performAll "job" ["app.post"] (postCalls ++ [.flush])).run helpfulWorld =
        (.ok (), w') ∧
      (w'.handed.filter (concerns ⟨"did:plc:a", "app.post", "1"⟩)).length = 3 := by
  have order := fold_order "job" ["app.post"] ⟨"did:plc:a", "app.post", "1"⟩ postCalls helpfulWorld
    ⟨rfl, rfl⟩
  have willing : Willing (2 * postCalls.length + 2) helpfulWorld.script := by
    refine ⟨by decide, fun reply mem => ?_⟩
    rw [List.eq_of_mem_replicate mem]
    exact ⟨rfl, fun _ => ⟨rfl, nofun⟩⟩
  obtain ⟨w', returned⟩ := order.2 willing
  refine ⟨w', returned, ?_⟩
  rw [order.1 w' returned]
  decide +kernel

end HappyView.Backfill
