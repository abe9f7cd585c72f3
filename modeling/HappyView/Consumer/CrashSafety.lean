import HappyView.Consumer.NumberingSafety
import HappyView.Consumer.Settlement

/-!
# What a crash of the consumer can lose

The cursor saved at a crash must not be past an event of the current filter that has
not been applied or given up: the next run starts there and never gets that event.
What keeps this is that the pool is handed events in the order of their seqs, so that
the applied point bounds what is settled, and that between the cursor a filter's first
session resumed from and any event handed out there is none of the filter that was not
handed out too.

`Reader` is the consumer over one server, with the filter of its session and how far the server
has got. A change of the filter puts the reader back at the saved cursor. If an event beyond that
cursor is still being applied then, or was applied and not saved, both fail, and a crash can skip
events of the new filter.
-/

namespace HappyView.Consumer

open HappyView.Foundation

variable {K : Type}

/-! ## Idle pools -/

theorem Watermark.complete_of_idle {w : Watermark} (idle : w.inFlight = 0) (ticket : Nat) :
    w.complete ticket = w := by
  have empty : w.pending = [] := List.length_eq_zero_iff.mp idle
  simp [complete, empty]

namespace Pool

variable {c : Config} {p q : Pool K} {h : History} {sent : List (Job K)} {done : Nat → List (Job K)}

theorem Inv.applied_of_idle (inv : p.Inv c h sent done) (idle : p.watermark.inFlight = 0) :
    p.watermark.applied = p.jobs.getLast?.map (·.event.cursor) := by
  have length := inv.tracks.pending_length
  have le := inv.tracks.front_le
  have all : p.watermark.front = h.issued.length := by
    rw [Watermark.inFlight] at idle
    omega
  rw [inv.tracks.applied, all, List.take_length, inv.issued, List.getLast?_map]

theorem Inv.applied_getElem (inv : p.Inv c h sent done) {point : CursorPoint}
    (applied : p.watermark.applied = some point) :
    ∃ k job, p.jobs[k]? = some job ∧ job.event.cursor = point ∧ k + 1 = p.watermark.front := by
  obtain ⟨positive, at_front⟩ := inv.tracks.applied_getElem applied
  rw [inv.issued, List.getElem?_map] at at_front
  obtain ⟨job, at_job, cursor⟩ := Option.map_eq_some_iff.mp at_front
  exact ⟨_, job, at_job, cursor, by omega⟩

variable [DecidableEq K]

/-- A step that is not a read hands out nothing, takes nothing back from the log, and
starts nothing. -/
structure Moves (p q : Pool K) : Prop where
  jobs : q.jobs = p.jobs
  log : ∀ job, settlements p.log job ≤ settlements q.log job
  idle : p.watermark.inFlight = 0 → q.watermark.inFlight = 0
  front : p.watermark.front ≤ q.watermark.front

theorem Inv.send_moves (inv : p.Inv c h sent done) (step : p.send c = some q) : p.Moves q := by
  obtain ⟨job, -, -, rfl⟩ := send_cases inv.running step
  exact ⟨rfl, fun _ => Nat.le_refl _, id, Nat.le_refl _⟩

theorem work_moves {i : Nat} {task : Task} (step : p.work c i task = some q) : p.Moves q := by
  obtain ⟨-, w, entries, ticket, -, rfl⟩ := work_cases step
  refine ⟨rfl, fun job => ?_, fun idle => ?_, ?_⟩
  · rw [settlements_append]
    omega
  · cases ticket with
    | none => exact idle
    | some ticket =>
      rw [Option.elim_some, Watermark.complete_of_idle idle]
      exact idle
  · cases ticket with
    | none => exact Nat.le_refl _
    | some ticket => exact p.watermark.le_complete_front ticket

end Pool

/-! ## The reader -/

/-- A filter that sessions subscribed with, and the cursor that the first of them
resumed from: for a session without a seq to resume from, the place just before the
first event it got. -/
structure Coverage where
  collections : List String
  base : Option Int
  deriving DecidableEq

def Coverage.begin (known : Coverage) (seq : Int) : Coverage :=
  { known with base := known.base.or (some (seq - 1)) }

structure Reader (K : Type) where
  live : Live.State K
  /-- The collections the lexicons ask for now, which the watch carries. -/
  collections : List String
  /-- The filter the session subscribed with. -/
  filter : List String := []
  /-- The server has sent everything it has for the filter up to here. -/
  position : Int := 0
  /-- No code reads this: it is what the reader is held to. -/
  coverage : Option Coverage := none

inductive Turn (K : Type) where
  | track (collections : List String)
  /-- A session opens. Without a seq to resume from, the server starts at `tip`. -/
  | connect (tip : Int)
  | receive (seq : Int)
  /-- The event's frame does not decode or parse, and is skipped. -/
  | lose (seq : Int)
  | live (turn : Live.Turn K)

/-- Turns that say nothing about the stream; the events of a v1 session have no seq. -/
def Live.Turn.free {K : Type} (protocol : Protocol) : Live.Turn K → Bool
  | .connect => false
  | .frame (.event _) => protocol = .v1
  | _ => true

namespace Reader

def connect (host : String) (r : Reader K) (tip : Int) (live : Live.State K) : Reader K :=
  let floor := seqCursor (r.live.resume host)
  { r with
    live
    filter := r.collections
    position := floor.elim tip (· - 1)
    coverage := if r.coverage.any (·.collections = r.collections) then r.coverage
      else some ⟨r.collections, floor⟩ }

def sent (r : Reader K) (seq : Int) (live : Live.State K) : Reader K :=
  { r with live, position := seq, coverage := r.coverage.map (·.begin seq) }

def step (server : Server K) (settings : Live.Settings) (r : Reader K) :
    Turn K → Option (Reader K)
  | .track collections => some { r with collections }
  | .connect tip => (r.live.step settings .connect).map (r.connect settings.host tip)
  | .receive seq =>
    if r.live.session.protocol = .v2 ∧ server.sends r.filter r.position seq then
      (server.stream seq).bind fun event =>
        (r.live.step settings (.frame (.event event))).map (r.sent seq)
    else none
  | .lose seq =>
    if r.live.session.protocol = .v2 ∧ server.sends r.filter r.position seq then
      (r.live.step settings (.frame .skip)).map fun live => { r with live, position := seq }
    else none
  | .live turn =>
    if turn.free r.live.session.protocol then
      (r.live.step settings turn).map fun live => { r with live }
    else none

end Reader

/-- `run` over the rows it finds, with the collections tracked at its start. -/
def reader (server : Server K) (settings : Live.Settings) (stored : StoredCursor)
    (collections : List String) : Machine (Reader K) (Turn K) where
  start := { live := (Live.live settings stored).start, collections }
  step := Reader.step server settings

/-! ## The invariant -/

namespace Reader

/-- The event at seq `n` was handed to the pool. -/
def Issued (r : Reader K) (n : Int) : Prop :=
  ∃ job ∈ r.live.pool.jobs, job.event.cursor.seq = some n

/-- Every event in the filter that is past `base` and not past `n` was handed out. -/
def Received (server : Server K) (r : Reader K) (filter : List String) (base n : Int) : Prop :=
  ∀ m, server.wanted filter m → base < m → m ≤ n → r.Issued m

/-- What holds of the reader and its session. -/
structure Open (server : Server K) (host : String) (r : Reader K) (connection : Live.Connection) :
    Prop where
  speaks : r.live.session.protocol = .v2
  covers : ∃ base, r.coverage = some ⟨r.filter, base⟩
  floor : ∀ n, r.Issued n → ∃ x, connection.floor = some x ∧ n ≤ x
  fresh : ∀ filter, r.coverage = some ⟨filter, none⟩ → connection.floor = none
  received : ∀ filter base, r.coverage = some ⟨filter, some base⟩ →
    ∀ n, n = r.position ∨ connection.floor = some n → r.Received server filter base n
  /-- The last save that was reported is of an event handed out, and still the saved one if the
  applied point has not moved on. -/
  lastSaved : ∀ point, connection.lastSaved = some point → ∃ k job,
    r.live.pool.jobs[k]? = some job ∧ job.event.cursor = point ∧
    k < r.live.pool.watermark.front ∧
    (k + 1 = r.live.pool.watermark.front → r.live.stored = .save host point)

/-- The reader has not been made to leave its place. -/
structure Steady (session : Live.Session) : Prop where
  unbarred : session.saveBarrier = none
  unstale : session.staleSeq = none
  placed : session.fromTip = false

variable {server : Server K} {settings : Live.Settings} {host : String} {initial : StoredCursor}
variable {r : Reader K} {connection : Live.Connection}

theorem Open.received_sent (opened : r.Open server host connection) {seq : Int}
    (sends : server.sends r.filter r.position seq) {live : Live.State K}
    (keeps : ∀ n, r.Issued n → (r.sent seq live).Issued n) (issued : (r.sent seq live).Issued seq)
    {filter : List String} {base : Int}
    (cov : (r.sent seq live).coverage = some ⟨filter, some base⟩) :
    (r.sent seq live).Received server filter base seq := by
  obtain ⟨-, -, skipped⟩ := Server.sends_iff.mp sends
  obtain ⟨start, known⟩ := opened.covers
  simp only [sent, known, Option.map_some, Coverage.begin, Option.some.injEq,
    Coverage.mk.injEq] at cov
  obtain ⟨rfl, begins⟩ := cov
  intro m want above le
  rcases Int.lt_or_eq_of_le le with before | rfl
  · cases start with
    | none =>
      simp only [Option.none_or, Option.some.injEq] at begins
      omega
    | some start =>
      simp only [Option.some_or, Option.some.injEq] at begins
      subst begins
      by_cases old : m ≤ r.position
      · exact keeps m (opened.received _ _ known _ (.inl rfl) m want above old)
      · rw [skipped m (by omega) before] at want
        cases want
  · exact issued

/-! ## What a turn does to a reader in its place -/

/-- Where a reader in its place resumes. -/
def resume (host : String) (r : Reader K) : Option Int :=
  v2Resume (r.live.stored.resumeCursor host .v2) r.live.lastDispatched

theorem Steady.resume_eq (steady : Steady r.live.session)
    (speaks : r.live.session.protocol = .v2) : r.live.resume host = r.resume host := by
  have load : r.live.session.load r.live.stored = r.live.stored := by
    refine if_neg fun stale => ?_
    rw [steady.unstale] at stale
    simp [stale.2] at stale
  rw [Live.State.resume, steady.placed, speaks, load]
  rfl

/-- Only the session changes, and the reader stays in its place. -/
structure Stays (s t : Live.State K) : Prop where
  pool : t.pool = s.pool
  stored : t.stored = s.stored
  last : t.lastDispatched = s.lastDispatched
  link : t.link = s.link
  steady : Steady s.session → Steady t.session

theorem Stays.refl (s : Live.State K) : Stays s s := ⟨rfl, rfl, rfl, rfl, id⟩

theorem resumeWithoutSeq_cases (s : Live.State K) (loads toTip : Bool) :
    s.resumeWithoutSeq loads toTip = (s, false) ∨
      (s.resumeWithoutSeq loads toTip).1.rewinds = s.rewinds + 1 := by
  unfold Live.State.resumeWithoutSeq
  dsimp only
  split
  · exact .inl rfl
  split
  · exact .inl rfl
  · exact .inr rfl

theorem handleRejection_stays {s : Live.State K} {refusal : Live.Refusal}
    (kept : (s.handleRejection host refusal).rewinds = s.rewinds) :
    Stays s (s.handleRejection host refusal) := by
  have counted (n : Nat) :
      Stays s { s with session := { s.session with unexplained400s := n } } :=
    ⟨rfl, rfl, rfl, rfl, fun steady => { steady with }⟩
  have waits (n : Nat) : Stays s
      { s with session := { s.session with unexplained400s := n, fromTip := false } } :=
    ⟨rfl, rfl, rfl, rfl, fun steady => { steady with placed := rfl }⟩
  revert kept
  unfold Live.State.handleRejection
  split
  · split
    · exact fun kept => absurd kept (Nat.succ_ne_self _)
    · exact fun _ => .refl s
  · dsimp only
    generalize (if s.session.protocol = .v2 ∧ (s.session.gapResumedAt.isNone ∨
      s.session.sentCursor ≠ s.session.gapResumedAt) then s.gapFloor host refusal.loads
      else none) = floor
    split
    · exact fun kept => absurd kept (Nat.succ_ne_self _)
    · rcases resumeWithoutSeq_cases s refusal.loads true with same | gone
      · rw [same]
        exact fun _ => .refl s
      · rw [gone]
        exact fun kept => absurd kept (Nat.succ_ne_self _)
  · exact fun _ => ⟨rfl, rfl, rfl, rfl, fun steady => { steady with placed := rfl }⟩
  · -- a 400 without a name
    dsimp only
    split
    · exact fun _ => counted _
    · split
      · split
        · rename_i resumed same
          rcases resumeWithoutSeq_cases { s with session := { s.session with
            unexplained400s := s.session.unexplained400s + 1 } } refusal.loads false with
            stayed | gone
          · rw [stayed] at same
            cases same
          · rw [same] at gone
            exact fun kept => absurd (gone.symm.trans kept) (Nat.succ_ne_self _)
        · exact fun _ => waits _
      · exact fun _ => waits _
  all_goals exact fun _ => .refl s

theorem receive_cases {s : Live.State K} {seq : Int} {event : Event K} {t : Live.State K}
    (at_seq : event.cursor.seq = some seq) (h : s.receive connection event = some t) :
    (∃ x, connection.floor = some x ∧ seq ≤ x ∧ t = s) ∨
    ((∀ x, connection.floor = some x → x < seq) ∧
      s.dispatch { connection with floor := some seq } (some seq) event = some t) := by
  simp only [Live.State.receive, at_seq] at h
  split at h
  · rename_i seen
    obtain ⟨x, floor, le⟩ := (Option.any_eq_true _ _).mp seen
    cases h
    exact .inl ⟨x, floor, by simpa using le, rfl⟩
  · rename_i unseen
    exact .inr ⟨fun x floor => by simpa [floor] using unseen, h⟩

theorem flush_cases {s : Live.State K} (unbarred : s.session.saveBarrier = none) (host : String)
    (connection : Live.Connection) (saving : Live.Saving) :
    (s.flush host connection saving = (s, connection) ∧
      ∀ point, s.pool.watermark.applied = some point →
        saving = .failed ∨ connection.lastSaved = some point) ∨
    ∃ point, s.pool.watermark.applied = some point ∧ connection.lastSaved ≠ some point ∧
      (s.flush host connection saving).1 = s.save host point ∧
      ((s.flush host connection saving).2 = { connection with lastSaved := some point } ∨
        (s.flush host connection saving).2 = connection) := by
  have same : { s with session := { s.session with saveBarrier := none } } = s := by
    rw [← unbarred]
  unfold Live.State.flush Live.State.flushPoint
  rw [unbarred]
  dsimp only
  cases applied : s.pool.watermark.applied with
  | none => exact .inl ⟨rfl, nofun⟩
  | some point =>
    dsimp only
    rw [same]
    split
    · rename_i last
      refine .inl ⟨rfl, ?_⟩
      rintro _ ⟨⟩
      exact .inr last
    · rename_i new
      cases saving with
      | done => exact .inr ⟨point, rfl, new, rfl, .inl rfl⟩
      | unreported => exact .inr ⟨point, rfl, new, rfl, .inr rfl⟩
      | failed => exact .inl ⟨rfl, fun _ _ => .inl rfl⟩

theorem finish_link (s : Live.State K) (ended : Live.Ended) (saving : Live.Saving) :
    (s.finish host connection ended saving).link = .down := by
  cases ended <;> rfl

/-! ## Between turns -/

variable [DecidableEq K]

/-- The event at seq `n` was applied or given up. -/
def Settled (r : Reader K) (n : Int) : Prop :=
  ∃ job ∈ r.live.pool.jobs, job.event.cursor.seq = some n ∧ 0 < settlements r.live.pool.log job

/-- What holds of the reader between any two turns, whatever its session does. -/
structure Kept (server : Server K) (settings : Live.Settings) (initial : StoredCursor)
    (r : Reader K) : Prop where
  pool : ∃ h sent done, r.live.pool.Inv settings.workers h sent done
  steady : Steady r.live.session
  seqs : ∀ job ∈ r.live.pool.jobs, ∃ n, job.event.cursor.seq = some n ∧ n < timestampCursorMin
  increasing : r.live.pool.jobs.Pairwise fun a b =>
    ∀ m n, a.event.cursor.seq = some m → b.event.cursor.seq = some n → m < n
  last : ∀ d, r.live.lastDispatched = some d → r.Issued d ∧ ∀ n, r.Issued n → n ≤ d
  /-- After a change of the filter, the saved cursor is where the pool has got to. -/
  idle : r.live.lastDispatched = none → r.live.pool.watermark.inFlight = 0 ∧
    ∀ n, r.Issued n → ∃ s, r.live.stored.resumeSeq settings.host = some s ∧ n ≤ s
  fresh : ∀ filter, r.coverage = some ⟨filter, none⟩ →
    r.live.pool.jobs = [] ∧ r.live.stored.resumeSeq settings.host = none
  saved : ∀ filter base, r.coverage = some ⟨filter, some base⟩ →
    ∀ s, r.live.stored.resumeSeq settings.host = some s →
      ∀ n, server.wanted filter n → base < n → n ≤ s → r.Settled n
  started : ∀ filter base, r.coverage = some ⟨filter, some base⟩ →
    (r.live.stored.resumeSeq settings.host).isSome ∨ r.live.pool.jobs ≠ []
  reached : ∀ filter base, r.coverage = some ⟨filter, some base⟩ →
    ∀ d, r.live.lastDispatched = some d → r.Received server filter base d
  resumes : (initial.resumeSeq settings.host).isSome →
    (r.live.stored.resumeSeq settings.host).isSome

structure Inv (server : Server K) (settings : Live.Settings) (initial : StoredCursor)
    (r : Reader K) : Prop where
  kept : r.Kept server settings initial
  opened : ∀ connection, r.live.link.connection = some connection →
    r.Open server settings.host connection

theorem Kept.congr (kept : r.Kept server settings initial) {t : Reader K}
    (pool : t.live.pool = r.live.pool) (stored : t.live.stored = r.live.stored)
    (last : t.live.lastDispatched = r.live.lastDispatched) (steady : Steady t.live.session)
    (coverage : t.coverage = r.coverage) : t.Kept server settings initial := by
  obtain ⟨⟨_, _, _, _, _, _, _, _, _, _⟩, _, _, _, _⟩ := t
  dsimp only at pool stored last coverage
  subst pool stored last coverage
  exact { kept with steady }

theorem Settled.issued {n : Int} (settled : r.Settled n) : r.Issued n := by
  obtain ⟨job, mem, seq, -⟩ := settled
  exact ⟨job, mem, seq⟩

/-! ## Workers -/

section Moves

variable {q : Pool K}

theorem issued_moves (moves : r.live.pool.Moves q) (n : Int) :
    { r with live := { r.live with pool := q } }.Issued n ↔ r.Issued n := by
  simp [Issued, moves.jobs]

theorem Settled.moves (moves : r.live.pool.Moves q) {n : Int} (settled : r.Settled n) :
    { r with live := { r.live with pool := q } }.Settled n := by
  obtain ⟨job, mem, seq, pos⟩ := settled
  have grows := moves.log job
  exact ⟨job, moves.jobs ▸ mem, seq, by dsimp only; omega⟩

theorem Kept.moves (kept : r.Kept server settings initial) (moves : r.live.pool.Moves q)
    (inv : ∃ h sent done, q.Inv settings.workers h sent done) :
    { r with live := { r.live with pool := q } }.Kept server settings initial where
  pool := inv
  steady := kept.steady
  seqs := by simpa only [moves.jobs] using kept.seqs
  increasing := by simpa only [moves.jobs] using kept.increasing
  last := by simpa only [issued_moves moves] using kept.last
  idle none := by
    obtain ⟨idle, bound⟩ := kept.idle none
    exact ⟨moves.idle idle, by simpa only [issued_moves moves] using bound⟩
  fresh := by simpa only [moves.jobs] using kept.fresh
  saved filter base cov s at_s n want above le := (kept.saved filter base cov s at_s n want above
    le).moves moves
  started := by simpa only [moves.jobs] using kept.started
  reached := by simpa only [Received, issued_moves moves] using kept.reached
  resumes := kept.resumes

theorem Open.moves (opened : r.Open server settings.host connection) (moves : r.live.pool.Moves q) :
    { r with live := { r.live with pool := q } }.Open server settings.host connection where
  speaks := opened.speaks
  covers := opened.covers
  floor := by simpa only [issued_moves moves] using opened.floor
  fresh := opened.fresh
  received := by simpa only [Received, issued_moves moves] using opened.received
  lastSaved point last := by
    obtain ⟨k, job, at_k, cursor, before, saved⟩ := opened.lastSaved point last
    have front := moves.front
    exact ⟨k, job, moves.jobs ▸ at_k, cursor, by dsimp only; omega,
      fun here => saved (by dsimp only at here; omega)⟩

end Moves

/-! ## Saving -/

theorem Kept.settled_of_applied (kept : r.Kept server settings initial) {point : CursorPoint}
    (applied : r.live.pool.watermark.applied = some point) :
    ∃ a, point.seq = some a ∧ a < timestampCursorMin ∧ r.Issued a ∧
      ∀ n ≤ a, r.Issued n → r.Settled n := by
  obtain ⟨h, sent, done, inv⟩ := kept.pool
  obtain ⟨last, job, at_last, rfl, settled⟩ := inv.settled_of_applied applied
  have mem := List.mem_of_getElem? at_last
  obtain ⟨a, seq, small⟩ := kept.seqs job mem
  refine ⟨a, seq, small, ⟨job, mem, seq⟩, fun n le issued => ?_⟩
  obtain ⟨other, mem', seq'⟩ := issued
  obtain ⟨k, at_k⟩ := List.getElem?_of_mem mem'
  -- A job after the applied one has a greater seq.
  have before : k ≤ last := by
    by_contra after
    obtain ⟨lt, get⟩ := List.getElem?_eq_some_iff.mp at_last
    obtain ⟨lt', get'⟩ := List.getElem?_eq_some_iff.mp at_k
    have order := List.pairwise_iff_getElem.mp kept.increasing last k lt lt' (by omega)
    rw [get, get'] at order
    have := order a n seq seq'
    omega
  obtain ⟨same, at_same, once⟩ := settled k before
  obtain rfl : other = same := Option.some.inj (at_k.symm.trans at_same)
  exact ⟨other, mem', seq', by omega⟩

theorem Kept.le_applied (kept : r.Kept server settings initial)
    (idle : r.live.pool.watermark.inFlight = 0) {n : Int} (issued : r.Issued n) :
    ∃ point a, r.live.pool.watermark.applied = some point ∧ point.seq = some a ∧ n ≤ a := by
  obtain ⟨h, sent, done, inv⟩ := kept.pool
  obtain ⟨job, mem, seq⟩ := issued
  have some_job : r.live.pool.jobs ≠ [] := List.ne_nil_of_mem mem
  have split := List.dropLast_append_getLast some_job
  have applied := inv.applied_of_idle idle
  rw [List.getLast?_eq_some_getLast some_job, Option.map_some] at applied
  obtain ⟨a, seq_a, -⟩ := kept.seqs _ (List.getLast_mem some_job)
  refine ⟨_, a, applied, seq_a, ?_⟩
  have order := kept.increasing
  rw [← split, List.pairwise_append] at order
  rw [← split, List.mem_append] at mem
  rcases mem with before | last
  · exact Int.le_of_lt (order.2.2 job before _ (List.mem_singleton_self _) n a seq seq_a)
  · obtain rfl := List.mem_singleton.mp last
    exact Int.le_of_eq (Option.some.inj (seq.symm.trans seq_a))

theorem Kept.index_unique (kept : r.Kept server settings initial) {i k : Nat} {a b : Job K}
    (at_i : r.live.pool.jobs[i]? = some a) (at_k : r.live.pool.jobs[k]? = some b)
    (same : a.event.cursor = b.event.cursor) : i = k := by
  obtain ⟨n, seq, -⟩ := kept.seqs a (List.mem_of_getElem? at_i)
  have seq' : b.event.cursor.seq = some n := same ▸ seq
  obtain ⟨lt, get⟩ := List.getElem?_eq_some_iff.mp at_i
  obtain ⟨lt', get'⟩ := List.getElem?_eq_some_iff.mp at_k
  have order := List.pairwise_iff_getElem.mp kept.increasing
  rcases Nat.lt_trichotomy i k with before | here | after
  · have := order i k lt lt' before n n (get ▸ seq) (get' ▸ seq')
    omega
  · exact here
  · have := order k i lt' lt after n n (get' ▸ seq') (get ▸ seq)
    omega

theorem Kept.save (kept : r.Kept server settings initial)
    (opened : r.Open server settings.host connection) {point : CursorPoint}
    (applied : r.live.pool.watermark.applied = some point) :
    { r with live := r.live.save settings.host point }.Kept server settings initial := by
  obtain ⟨a, seq, small, issued, settled⟩ := kept.settled_of_applied applied
  have resume := StoredCursor.resumeSeq_save settings.host seq small
  refine { kept with
    idle := ?_, fresh := ?_, saved := ?_, resumes := ?_
    started := fun _ _ _ => .inl (resume ▸ rfl) }
  · intro none
    obtain ⟨idle, -⟩ := kept.idle none
    refine ⟨idle, fun n issued => ⟨a, resume, ?_⟩⟩
    obtain ⟨last, b, at_last, seq_b, le⟩ := kept.le_applied idle issued
    obtain rfl := Option.some.inj (applied.symm.trans at_last)
    obtain rfl := Option.some.inj (seq.symm.trans seq_b)
    exact le
  · -- Something was handed out, so the filter has a place it started from.
    intro filter cov
    obtain ⟨job, mem, -⟩ := issued
    rw [(kept.fresh filter cov).1] at mem
    cases mem
  · intro filter base cov s at_s n want above le
    obtain rfl : a = s := Option.some.inj (resume.symm.trans at_s)
    obtain ⟨x, floor, bound⟩ := opened.floor a issued
    exact settled n le (opened.received filter base cov x (.inr floor) n want above (by omega))
  · intro _
    exact resume ▸ rfl

theorem Open.save (kept : r.Kept server settings initial)
    (opened : r.Open server settings.host connection) {point : CursorPoint}
    (applied : r.live.pool.watermark.applied = some point)
    (new : connection.lastSaved ≠ some point) {next : Live.Connection}
    (reported : next = { connection with lastSaved := some point } ∨ next = connection) :
    { r with live := r.live.save settings.host point }.Open server settings.host next := by
  obtain ⟨h, sent, done, inv⟩ := kept.pool
  obtain ⟨i, last, at_i, cursor, front⟩ := inv.applied_getElem applied
  rcases reported with rfl | rfl
  · refine { opened with lastSaved := ?_ }
    rintro saved ⟨⟩
    exact ⟨i, last, at_i, cursor, Nat.lt_of_succ_le (Nat.le_of_eq front), fun _ => rfl⟩
  · refine { opened with lastSaved := fun saved at_saved => ?_ }
    obtain ⟨k, job, at_k, cursor', before, -⟩ := opened.lastSaved saved at_saved
    refine ⟨k, job, at_k, cursor', before, fun here => ?_⟩
    obtain rfl : i = k := Nat.succ_injective (front.trans here.symm)
    obtain rfl := Option.some.inj (at_i.symm.trans at_k)
    exact absurd (at_saved.trans (congrArg some (cursor'.symm.trans cursor))) new

theorem Kept.flush (kept : r.Kept server settings initial)
    (opened : r.Open server settings.host connection) (saving : Live.Saving) :
    { r with live := (r.live.flush settings.host connection saving).1 }.Kept server settings
        initial ∧
      { r with live := (r.live.flush settings.host connection saving).1 }.Open server settings.host
        (r.live.flush settings.host connection saving).2 := by
  rcases flush_cases kept.steady.unbarred settings.host connection saving with
    ⟨same, -⟩ | ⟨point, applied, new, saved, reported⟩
  · rw [same]
    exact ⟨kept, opened⟩
  · rw [saved]
    exact ⟨kept.save opened applied, .save kept opened applied new reported⟩

theorem Kept.flush_stored (kept : r.Kept server settings initial)
    (opened : r.Open server settings.host connection) {saving : Live.Saving}
    (saves : saving ≠ .failed) {point : CursorPoint}
    (applied : r.live.pool.watermark.applied = some point) :
    (r.live.flush settings.host connection saving).1.stored = .save settings.host point := by
  rcases flush_cases kept.steady.unbarred settings.host connection saving with
    ⟨same, known⟩ | ⟨_, applied', -, saved, -⟩
  · obtain ⟨h, sent, done, inv⟩ := kept.pool
    obtain ⟨i, last, at_i, cursor, front⟩ := inv.applied_getElem applied
    obtain ⟨k, job, at_k, cursor', -, saved⟩ :=
      opened.lastSaved point ((known point applied).resolve_left saves)
    obtain rfl := kept.index_unique at_k at_i (cursor'.trans cursor.symm)
    rw [same]
    exact saved front
  · obtain rfl := Option.some.inj (applied'.symm.trans applied)
    rw [saved]
    rfl

/-! ## Sessions -/

theorem Kept.finish_closed (kept : r.Kept server settings initial)
    (opened : r.Open server settings.host connection) (saving : Live.Saving) :
    { r with live := { (r.live.flush settings.host connection saving).1 with link := .down } }.Kept
      server settings initial :=
  { (kept.flush opened saving).1 with }

theorem Kept.finish_changed (kept : r.Kept server settings initial)
    (opened : r.Open server settings.host connection) {saving : Live.Saving}
    (idle : r.live.pool.watermark.inFlight = 0) (saves : saving ≠ .failed) :
    { r with live := r.live.finish settings.host connection .collectionsChanged saving }.Kept
      server settings initial := by
  have after := (kept.flush opened saving).1
  have pool : (r.live.flush settings.host connection saving).1.pool = r.live.pool := by
    rcases flush_cases kept.steady.unbarred settings.host connection saving with
      ⟨same, -⟩ | ⟨_, _, -, saved, -⟩
    · rw [same]
    · rw [saved]
      rfl
  refine { after with last := nofun, idle := fun _ => ?_, reached := fun _ _ _ => nofun }
  refine ⟨pool ▸ idle, fun n issued => ?_⟩
  have issued : r.Issued n := by
    obtain ⟨job, mem, seq⟩ := issued
    exact ⟨job, pool ▸ mem, seq⟩
  obtain ⟨point, a, applied, seq, le⟩ := kept.le_applied idle issued
  obtain ⟨b, seq_b, small, -⟩ := kept.settled_of_applied applied
  obtain rfl := Option.some.inj (seq.symm.trans seq_b)
  refine ⟨a, ?_, le⟩
  change (r.live.flush settings.host connection saving).1.stored.resumeSeq settings.host = some a
  rw [kept.flush_stored opened saves applied]
  exact StoredCursor.resumeSeq_save settings.host seq small

theorem Kept.stays (kept : r.Kept server settings initial) {live : Live.State K}
    (stays : Stays r.live live) : { r with live }.Kept server settings initial :=
  kept.congr stays.pool stays.stored stays.last (stays.steady kept.steady) rfl

/-! ## Opening a session -/

section Connect

variable (kept : r.Kept server settings initial)

include kept

theorem Kept.last_lt : ∀ n, r.live.lastDispatched = some n → n < timestampCursorMin := by
  intro n last
  obtain ⟨job, mem, seq⟩ := (kept.last n last).1
  obtain ⟨m, seq_m, small⟩ := kept.seqs job mem
  obtain rfl := Option.some.inj (seq.symm.trans seq_m)
  exact small

theorem Kept.exists_issued (some_job : r.live.pool.jobs ≠ []) : ∃ n, r.Issued n := by
  obtain ⟨job, mem⟩ := List.exists_mem_of_ne_nil _ some_job
  obtain ⟨n, seq, -⟩ := kept.seqs job mem
  exact ⟨n, job, mem, seq⟩

theorem Kept.saved_le_resume {s : Int} (saved : r.live.stored.resumeSeq settings.host = some s) :
    ∃ x, seqCursor (r.resume settings.host) = some x ∧ s ≤ x :=
  le_resume_of_saved kept.last_lt saved

theorem Kept.issued_le_resume {n : Int}
    (issued : r.Issued n) : ∃ x, seqCursor (r.resume settings.host) = some x ∧ n ≤ x := by
  cases last : r.live.lastDispatched with
  | none =>
    obtain ⟨s, saved, le⟩ := (kept.idle last).2 n issued
    obtain ⟨x, resume, le'⟩ := kept.saved_le_resume saved
    exact ⟨x, resume, by omega⟩
  | some d =>
    have le := (kept.last d last).2 n issued
    obtain ⟨x, resume, le'⟩ := le_resume_of_last kept.last_lt last
    exact ⟨x, resume, by omega⟩

theorem Kept.received_resume {filter : List String}
    {base x : Int} (cov : r.coverage = some ⟨filter, some base⟩)
    (resume : seqCursor (r.resume settings.host) = some x) : r.Received server filter base x := by
  rcases resume_cases resume with saved | last
  · exact fun m want above le => (kept.saved filter base cov x saved m want above le).issued
  · exact kept.reached filter base cov x last

theorem Kept.resume_isSome
    (started : (r.live.stored.resumeSeq settings.host).isSome ∨ r.live.pool.jobs ≠ []) :
    ∃ x, seqCursor (r.resume settings.host) = some x := by
  rcases started with saved | some_job
  · obtain ⟨s, saved⟩ := Option.isSome_iff_exists.mp saved
    obtain ⟨x, resume, -⟩ := kept.saved_le_resume saved
    exact ⟨x, resume⟩
  · obtain ⟨n, issued⟩ := kept.exists_issued some_job
    obtain ⟨x, resume, -⟩ := kept.issued_le_resume issued
    exact ⟨x, resume⟩

theorem Kept.fresh_of_resume (none : seqCursor (r.resume settings.host) = none) :
    r.live.pool.jobs = [] ∧ r.live.stored.resumeSeq settings.host = Option.none := by
  by_contra started
  obtain ⟨x, resume⟩ := kept.resume_isSome (by
    by_cases empty : r.live.pool.jobs = []
    · exact .inl (Option.isSome_iff_ne_none.mpr fun saved => started ⟨empty, saved⟩)
    · exact .inr empty)
  rw [none] at resume
  cases resume

theorem Kept.resume_of_fresh {filter : List String}
    (cov : r.coverage = some ⟨filter, none⟩) : seqCursor (r.resume settings.host) = none := by
  obtain ⟨empty, unsaved⟩ := kept.fresh filter cov
  by_contra seq
  obtain ⟨x, resume⟩ := Option.ne_none_iff_exists'.mp seq
  rcases resume_cases resume with saved | last
  · exact absurd (unsaved.symm.trans saved) (by simp)
  · obtain ⟨job, mem, -⟩ := (kept.last x last).1
    simp [empty] at mem

theorem Kept.connect_same (speaks : r.live.session.protocol = .v2) (tip : Int)
    (same : r.coverage.any (·.collections = r.collections)) :
    (r.connect settings.host tip (r.live.connect settings.host)).Inv server settings initial := by
  have coverage : (r.connect settings.host tip (r.live.connect settings.host)).coverage =
      r.coverage := if_pos same
  refine ⟨kept.congr rfl rfl rfl { kept.steady with } coverage, ?_⟩
  rintro connection ⟨⟩
  simp only [speaks, kept.steady.resume_eq speaks]
  refine ⟨speaks, ?_, fun n issued => kept.issued_le_resume issued, ?_, ?_, by simp⟩
  · obtain ⟨known, cov, collections⟩ := (Option.any_eq_true _ _).mp same
    refine ⟨known.base, ?_⟩
    rw [coverage, cov, connect, ← of_decide_eq_true collections]
  · rw [coverage]
    exact fun filter cov => kept.resume_of_fresh cov
  · rw [coverage]
    intro filter base cov n place
    obtain ⟨x, resume⟩ := kept.resume_isSome (kept.started filter base cov)
    have received := kept.received_resume cov resume
    simp only [connect, kept.steady.resume_eq speaks, resume, Option.elim_some,
      Option.some.injEq] at place
    exact fun m want above le => received m want above (by omega)

theorem Kept.connect_new (speaks : r.live.session.protocol = .v2) (tip : Int)
    (new : ¬ r.coverage.any (·.collections = r.collections)) :
    (r.connect settings.host tip (r.live.connect settings.host)).Inv server settings initial := by
  have coverage : (r.connect settings.host tip (r.live.connect settings.host)).coverage =
      some ⟨r.collections, seqCursor (r.resume settings.host)⟩ := by
    rw [← kept.steady.resume_eq speaks]
    exact if_neg new
  have covers {filter : List String} {base : Option Int}
      (cov : (r.connect settings.host tip (r.live.connect settings.host)).coverage =
        some ⟨filter, base⟩) : seqCursor (r.resume settings.host) = base := by
    rw [coverage] at cov
    cases cov
    rfl
  -- The base is where the session resumes, so nothing saved or handed out is past it.
  refine ⟨{ kept with
    steady := { kept.steady with }, fresh := ?_, saved := ?_, started := ?_, reached := ?_ }, ?_⟩
  · intro filter cov
    exact kept.fresh_of_resume (covers cov)
  · intro filter base cov s saved n _ above le
    obtain ⟨x, resume, le'⟩ := kept.saved_le_resume saved
    obtain rfl := Option.some.inj ((covers cov).symm.trans resume)
    omega
  · intro filter base cov
    rcases resume_cases (covers cov) with saved | last
    · exact .inl (Option.isSome_iff_exists.mpr ⟨base, saved⟩)
    · obtain ⟨job, mem, -⟩ := (kept.last base last).1
      exact .inr (List.ne_nil_of_mem mem)
  · intro filter base cov d last n _ above le
    obtain ⟨x, resume, le'⟩ := kept.issued_le_resume (kept.last d last).1
    obtain rfl := Option.some.inj ((covers cov).symm.trans resume)
    omega
  · rintro connection ⟨⟩
    simp only [speaks, kept.steady.resume_eq speaks]
    refine ⟨speaks, ⟨_, coverage⟩, fun n issued => kept.issued_le_resume issued,
      fun _ cov => covers cov, ?_, by simp⟩
    intro filter base cov n place m _ above le
    simp only [connect, kept.steady.resume_eq speaks, covers cov, Option.elim_some,
      Option.some.injEq] at place
    omega

end Connect

/-! ## Events -/

theorem Inv.receive_seen (inv : r.Inv server settings initial)
    (here : r.live.link.connection = some connection) {seq x : Int}
    (floor : connection.floor = some x) (le : seq ≤ x) :
    (r.sent seq r.live).Inv server settings initial := by
  obtain ⟨kept, opened⟩ := inv
  have coverage : (r.sent seq r.live).coverage = r.coverage := by
    obtain ⟨base, cov⟩ := (opened connection here).covers
    cases base with
    | none => exact absurd (floor.symm.trans ((opened connection here).fresh _ cov)) (by simp)
    | some base =>
      simp only [sent, cov]
      rfl
  refine ⟨kept.congr rfl rfl rfl kept.steady coverage, fun other here' => ?_⟩
  obtain rfl : connection = other := Option.some.inj (here.symm.trans here')
  have opened := opened connection here
  refine { opened with
    covers := coverage ▸ opened.covers, fresh := coverage ▸ opened.fresh, received := ?_ }
  rw [coverage]
  intro filter base cov n place m want above le'
  have received := opened.received filter base cov x (.inr floor)
  rw [floor, Option.some.injEq] at place
  simp only [sent] at place
  exact received m want above (by omega)

theorem Inv.receive_new (kept : r.Kept server settings initial)
    (opened : r.Open server settings.host connection) {seq : Int} {event : Event K}
    {live : Live.State K} (at_seq : event.cursor.seq = some seq) (small : seq < timestampCursorMin)
    (sends : server.sends r.filter r.position seq)
    (above_floor : ∀ x, connection.floor = some x → x < seq)
    (step : r.live.dispatch { connection with floor := some seq } (some seq) event = some live) :
    (r.sent seq live).Inv server settings initial := by
  obtain ⟨q, read, rfl⟩ := Option.map_eq_some_iff.mp step
  generalize ht : r.sent seq _ = t
  obtain ⟨h, before, done, inv⟩ := kept.pool
  have next := inv.read read
  obtain ⟨-, rfl⟩ := Pool.read_cases read
  obtain ⟨start, known⟩ := opened.covers
  have issued (n : Int) : t.Issued n ↔ r.Issued n ∨ n = seq := by
    subst ht
    simp [sent, Issued, or_and_right, exists_or, at_seq, eq_comm]
  have le_seq : ∀ n, t.Issued n → n ≤ seq := by
    intro n new
    rcases (issued n).mp new with old | rfl
    · obtain ⟨x, floor, le⟩ := opened.floor n old
      have := above_floor x floor
      omega
    · exact Int.le_refl n
  have this_one : t.Issued seq := (issued seq).mpr (.inr rfl)
  have received {filter : List String} {base : Int}
      (cov : t.coverage = some ⟨filter, some base⟩) : t.Received server filter base seq := by
    subst ht
    exact opened.received_sent sends (fun n old => (issued n).mpr (.inl old)) this_one cov
  have begun : ∀ filter, t.coverage ≠ some ⟨filter, none⟩ := by
    subst ht
    intro filter cov
    simp [sent, known, Coverage.begin] at cov
  have settled : ∀ n, r.Settled n → t.Settled n := by
    subst ht
    rintro n ⟨job, mem, seq, pos⟩
    exact ⟨job, List.mem_append_left _ mem, seq, pos⟩
  subst ht
  refine ⟨⟨⟨_, _, _, next⟩, { kept.steady with placed := rfl }, ?_, ?_, ?_, nofun, ?_, ?_, ?_, ?_,
    kept.resumes⟩, ?_⟩
  · intro job mem
    rcases List.mem_append.mp mem with old | new
    · exact kept.seqs job old
    · obtain rfl := List.mem_singleton.mp new
      exact ⟨seq, at_seq, small⟩
  · refine List.pairwise_append.mpr ⟨kept.increasing, List.pairwise_singleton _ _, ?_⟩
    intro job old last new m n seq_m seq_n
    obtain rfl := List.mem_singleton.mp new
    obtain rfl := Option.some.inj (at_seq.symm.trans seq_n)
    obtain ⟨x, floor, le⟩ := opened.floor m ⟨job, old, seq_m⟩
    have := above_floor x floor
    omega
  · rintro d ⟨⟩
    exact ⟨this_one, le_seq⟩
  · exact fun filter cov => absurd cov (begun filter)
  · intro filter base cov s saved n want above le
    cases start with
    | none => exact absurd (saved.symm.trans (kept.fresh _ known).2) (by simp)
    | some start =>
      simp only [sent, known, Option.map_some, Coverage.begin, Option.some_or] at cov
      cases cov
      exact settled n (kept.saved _ _ known s saved n want above le)
  · intro filter base cov
    exact .inr (by simp [sent])
  · rintro filter base cov d ⟨⟩
    exact received cov
  · rintro connection ⟨⟩
    refine ⟨opened.speaks, ⟨_, by simp only [sent, known]; rfl⟩,
      fun n issued => ⟨seq, rfl, le_seq n issued⟩, fun filter cov => absurd cov (begun filter),
      ?_, fun point last => ?_⟩
    · intro filter base cov n place
      obtain rfl : n = seq := by
        rcases place with rfl | same
        · rfl
        · exact (Option.some.inj same).symm
      exact received cov
    · obtain ⟨k, job, at_k, rest⟩ := opened.lastSaved point last
      refine ⟨k, job, ?_, rest⟩
      exact (List.getElem?_append_left (List.getElem?_eq_some_iff.mp at_k).1).trans at_k

/-! ## Runs -/

/-- The session speaks v2 and loses no frame, no refusal and no notice makes the reader leave its
place, and a session that ends because the collections changed ends with everything it handed out
applied or given up, and saves its cursor. -/
def steady (settings : Live.Settings) (r : Reader K) : Turn K → Bool
  | .connect _ => r.live.session.protocol = .v2
  | .lose _ => false
  | .live (.refuse refusal) =>
    ((r.live.subscribe settings.host).handleRejection settings.host refusal).rewinds =
      r.live.rewinds
  | .live (.frame (.info name)) => name ≠ "FutureCursor"
  | .live (.finish _ saving) => match r.live.link with
    | .draining _ .collectionsChanged =>
      r.live.pool.watermark.inFlight = 0 && saving ≠ .failed
    | _ => true
  | _ => true

theorem inv_start (collections : List String) :
    (reader (K := K) server settings initial collections).start.Inv server settings initial := by
  refine ⟨⟨⟨_, _, _, Pool.inv_start⟩, ⟨rfl, rfl, rfl⟩, ?_, .nil, nofun, ?_, nofun, nofun, nofun,
    nofun, id⟩, nofun⟩
  · intro job mem
    cases mem
  · refine fun _ => ⟨rfl, ?_⟩
    rintro n ⟨job, mem, -⟩
    cases mem

theorem Inv.receive (inv : r.Inv server settings initial) {seq : Int} {event : Event K}
    {live : Live.State K} (there : server.stream seq = some event)
    (sends : server.sends r.filter r.position seq)
    (step : r.live.step settings (.frame (.event event)) = some live) :
    (r.sent seq live).Inv server settings initial := by
  obtain ⟨us, cursor⟩ := server.cursor_eq there
  have at_seq : event.cursor.seq = some seq := by rw [cursor]; rfl
  simp only [Live.State.step] at step
  split at step
  · rename_i connection reading
    have here : r.live.link.connection = some connection := by rw [reading]; rfl
    split at step
    · rcases receive_cases at_seq step with ⟨x, floor, le, rfl⟩ | ⟨above, dispatched⟩
      · exact inv.receive_seen here floor le
      · exact .receive_new inv.kept (inv.opened connection here) at_seq (server.seq_lt there) sends
          above dispatched
    · cases step
  · cases step

theorem Inv.drain (inv : r.Inv server settings initial)
    (here : r.live.link.connection = some connection) (ended : Live.Ended) :
    { r with live := { r.live with link := .draining connection ended } }.Inv server settings
      initial := by
  refine ⟨{ inv.kept with }, ?_⟩
  rintro other ⟨⟩
  exact { inv.opened connection here with }

theorem Inv.frame (inv : r.Inv server settings initial) {frame : Live.Frame K}
    {live : Live.State K} (free : (Live.Turn.frame frame).free r.live.session.protocol)
    (steady : r.steady settings (.live (.frame frame)))
    (step : r.live.step settings (.frame frame) = some live) :
    { r with live }.Inv server settings initial := by
  simp only [Live.State.step] at step
  split at step
  · rename_i connection reading
    have here : r.live.link.connection = some connection := by rw [reading]; rfl
    split at step
    · cases frame with
      | event event =>
        simp [Live.Turn.free, (inv.opened connection here).speaks] at free
      | info name =>
        simp only [Reader.steady, decide_eq_true_eq] at steady
        simp only [Live.State.read, if_neg steady] at step
        cases step
        exact inv
      | error =>
        cases step
        exact inv.drain here .closed
      | skip =>
        cases step
        exact inv
    · cases step
  · cases step

theorem Inv.finish (inv : r.Inv server settings initial) {timedOut : Bool} {saving : Live.Saving}
    {live : Live.State K} (steady : r.steady settings (.live (.finish timedOut saving)))
    (step : r.live.step settings (.finish timedOut saving) = some live) :
    { r with live }.Inv server settings initial := by
  simp only [Live.State.step] at step
  split at step
  · rename_i connection ended draining
    have opened := inv.opened connection (by rw [draining]; rfl)
    split at step
    · cases step
      refine ⟨?_, fun other here => ?_⟩
      · cases ended with
        | collectionsChanged =>
          simp only [Reader.steady, draining, Bool.and_eq_true, decide_eq_true_eq] at steady
          exact inv.kept.finish_changed opened steady.1 steady.2
        | closed => exact inv.kept.finish_closed opened saving
        | renumbered => exact inv.kept.finish_closed opened saving
      · rw [finish_link] at here
        cases here
    · cases step
  · cases step

theorem Inv.live (inv : r.Inv server settings initial) {turn : Live.Turn K} {live : Live.State K}
    (free : turn.free r.live.session.protocol) (steady : r.steady settings (.live turn))
    (step : r.live.step settings turn = some live) :
    { r with live }.Inv server settings initial := by
  cases turn with
  | connect => cases free
  | fail =>
    simp only [Live.State.step] at step
    split at step
    · rename_i down
      cases step
      have stays : Stays r.live (r.live.subscribe settings.host) :=
        ⟨rfl, rfl, rfl, rfl, fun steady => { steady with }⟩
      exact ⟨inv.kept.stays stays, by simp [Live.State.subscribe, down, Live.Link.connection]⟩
    · cases step
  | refuse refusal =>
    simp only [Live.State.step] at step
    split at step
    · rename_i down
      cases step
      have stays := handleRejection_stays (of_decide_eq_true steady)
      have subscribed : Stays r.live (r.live.subscribe settings.host) :=
        ⟨rfl, rfl, rfl, rfl, fun steady => { steady with }⟩
      refine ⟨(inv.kept.stays subscribed).stays stays, fun connection here => ?_⟩
      rw [show _ = Live.Link.down from stays.link.trans down] at here
      cases here
    · cases step
  | frame frame => exact inv.frame free steady step
  | flush saving =>
    simp only [Live.State.step] at step
    split at step
    · rename_i connection reading
      obtain ⟨kept, opened⟩ :=
        inv.kept.flush (inv.opened connection (by rw [reading]; rfl)) saving
      split at step
      · cases step
        refine ⟨{ kept with }, ?_⟩
        rintro connection ⟨⟩
        exact { opened with }
      · cases step
    · cases step
  | close =>
    simp only [Live.State.step] at step
    split at step
    · rename_i connection reading
      split at step
      · cases step
        exact inv.drain (by rw [reading]; rfl) .closed
      · cases step
    · cases step
  | collectionsChanged =>
    simp only [Live.State.step] at step
    split at step
    · rename_i connection reading
      split at step
      · cases step
        exact inv.drain (by rw [reading]; rfl) .collectionsChanged
      · cases step
    · cases step
  | finish timedOut saving => exact inv.finish steady step
  | send =>
    obtain ⟨q, sends, rfl⟩ := Option.map_eq_some_iff.mp step
    obtain ⟨h, sent, done, pool⟩ := inv.kept.pool
    have moves := pool.send_moves sends
    exact ⟨inv.kept.moves moves ⟨_, _, _, pool.send sends⟩,
      fun connection here => (inv.opened connection here).moves moves⟩
  | work i task =>
    obtain ⟨q, works, rfl⟩ := Option.map_eq_some_iff.mp step
    obtain ⟨h, sent, done, pool⟩ := inv.kept.pool
    obtain ⟨h, done, next⟩ := pool.work works
    have moves := Pool.work_moves works
    exact ⟨inv.kept.moves moves ⟨_, _, _, next⟩,
      fun connection here => (inv.opened connection here).moves moves⟩

theorem Inv.step (inv : r.Inv server settings initial) {turn : Turn K} {t : Reader K}
    (steady : r.steady settings turn) (step : r.step server settings turn = some t) :
    t.Inv server settings initial := by
  cases turn with
  | track collections =>
    cases step
    exact ⟨{ inv.kept with }, fun connection here => { inv.opened connection here with }⟩
  | connect tip =>
    obtain ⟨live, opens, rfl⟩ := Option.map_eq_some_iff.mp step
    simp only [Live.State.step] at opens
    split at opens
    · cases opens
      have speaks : r.live.session.protocol = .v2 := of_decide_eq_true steady
      by_cases same : r.coverage.any (·.collections = r.collections)
      · exact inv.kept.connect_same speaks tip same
      · exact inv.kept.connect_new speaks tip same
    · cases opens
  | receive seq =>
    simp only [Reader.step] at step
    split at step
    · rename_i sends
      obtain ⟨event, there, step⟩ := Option.bind_eq_some_iff.mp step
      obtain ⟨live, received, rfl⟩ := Option.map_eq_some_iff.mp step
      exact inv.receive there sends.2 received
    · cases step
  | lose seq => cases steady
  | live turn =>
    simp only [Reader.step] at step
    split at step
    · rename_i free
      obtain ⟨live, moved, rfl⟩ := Option.map_eq_some_iff.mp step
      exact inv.live free steady moved
    · cases step

/-- Every event of the filter in force that is past the cursor its first session resumed
from is applied or given up, or is past the seq that the rows would be resumed from. -/
def Safe (server : Server K) (host : String) (r : Reader K) : Prop :=
  ∀ filter base, r.coverage = some ⟨filter, some base⟩ →
    ∀ n, server.wanted filter n → base < n →
      r.Settled n ∨ ∀ s, r.live.stored.resumeSeq host = some s → s < n

theorem Kept.safe (kept : r.Kept server settings initial) : r.Safe server settings.host := by
  intro filter base cov n want above
  refine Classical.or_iff_not_imp_left.mpr fun unsettled s saved => ?_
  by_contra past
  exact unsettled (kept.saved filter base cov s saved n want above (by omega))

end Reader

/-- However often the consumer reconnects or is refused, whatever the drains and saves come to and
whenever it crashes: as long as no frame is lost, the reader is not made to leave its place, and
every session that ends for a change of the collections is drained and saved, no event of the
filter in force is lost. A run that starts from a saved seq always leaves one, which the next run
resumes from. -/
theorem crash_safe [DecidableEq K] (server : Server K) (settings : Live.Settings)
    (initial : StoredCursor) (collections : List String) {turns : List (Turn K)} {r : Reader K}
    (run : (reader server settings initial collections).run turns = some r)
    (steady : (reader server settings initial collections).Along
      (fun r turn => r.steady settings turn) turns) :
    r.Safe server settings.host ∧ ((initial.resumeSeq settings.host).isSome →
      (r.live.stored.resumeSeq settings.host).isSome) := by
  have inv : r.Inv server settings initial :=
    Machine.induct_along (M := reader server settings initial collections)
      (Reader.inv_start collections) (fun _ _ _ inv ok step => inv.step ok step) steady run
  exact ⟨inv.kept.safe, inv.kept.resumes⟩

/-- Three events: one of `app.b`, one of `app.a`, and one of `app.b` again. -/
def threeEvents : Server String where
  stream n := [⟨"did:plc:b", .v2 51 0, "app.b"⟩, ⟨"did:plc:a", .v2 52 0, "app.a"⟩,
    ⟨"did:plc:b", .v2 53 0, "app.b"⟩].find? (·.cursor.seq = some n)
  wants collections event := event.kind ∈ collections
  cursor_eq h := by
    have same := List.find?_some h
    have mem := List.mem_of_find?_eq_some h
    simp only [List.mem_cons, List.not_mem_nil, or_false] at mem
    obtain rfl | rfl | rfl := mem <;> exact ⟨0, by simpa [CursorPoint.seq] using same⟩
  seq_lt h := by
    have same := List.find?_some h
    have mem := List.mem_of_find?_eq_some h
    simp only [List.mem_cons, List.not_mem_nil, or_false] at mem
    obtain rfl | rfl | rfl := mem <;>
      simp only [CursorPoint.seq, decide_eq_true_eq, Option.some.injEq] at same <;> subst same <;>
      decide

def oneWorker : Live.Settings := ⟨"jetstream", .auto, ⟨1, 1, ⟨[], 60⟩, fun _ => 0⟩⟩

def applyOne : List (Turn String) :=
  [.work 0 .recv, .work 0 .call, .work 0 (.reply .applied), .work 0 .complete].map .live

/-- `app.b` is tracked while an event of `app.a` is being applied, which is done before the
session ends. The server refuses twice before it accepts. -/
def drainedChange : List (Turn String) :=
  [.live (.refuse ⟨.unavailable, true, none⟩), .live (.refuse ⟨.other 400, true, none⟩),
    .connect 0, .live (.frame (.info "Hello")), .receive 52, .live .send,
    .track ["app.a", "app.b"], .live .collectionsChanged] ++
    applyOne ++ [.live (.finish false .done), .connect 0, .receive 52, .receive 53, .live .send]

theorem crash_safe_changed : ∃ r,
    (reader threeEvents oneWorker { seq := some 50, host := some "jetstream" } ["app.a"]).run
      drainedChange = some r ∧
    r.coverage = some ⟨["app.a", "app.b"], some 52⟩ ∧ r.Safe threeEvents "jetstream" := by
  obtain ⟨r, run, coverage⟩ := (Option.any_eq_true _ _).mp (by decide +kernel :
    ((reader threeEvents oneWorker { seq := some 50, host := some "jetstream" } ["app.a"]).run
      drainedChange).any (·.coverage = some ⟨["app.a", "app.b"], some 52⟩) = true)
  exact ⟨r, run, of_decide_eq_true coverage, (crash_safe _ oneWorker _ _ run (by decide +kernel)).1⟩

/-- The same change, but the drain times out: the event of `app.a` is applied, and its seq
saved, when the next session has not yet got the event of `app.b` before it. -/
def timedOutChange : List (Turn String) :=
  [.connect 0, .receive 52, .live .send, .track ["app.a", "app.b"], .live .collectionsChanged,
    .live (.finish true .done), .connect 0] ++ applyOne ++ [.live (.flush .done)]

theorem crash_loses : ∃ r,
    (reader threeEvents oneWorker { seq := some 50, host := some "jetstream" } ["app.a"]).run
      timedOutChange = some r ∧
    r.coverage = some ⟨["app.a", "app.b"], some 50⟩ ∧
    r.live.stored.resumeSeq "jetstream" = some 52 ∧ ¬ r.Safe threeEvents "jetstream" := by
  obtain ⟨r, run, facts⟩ := (Option.any_eq_true _ _).mp (by decide +kernel :
    ((reader threeEvents oneWorker { seq := some 50, host := some "jetstream" } ["app.a"]).run
      timedOutChange).any (fun r =>
        r.coverage = some ⟨["app.a", "app.b"], some 50⟩ &&
        r.live.stored.resumeSeq "jetstream" = some 52 &&
        r.live.pool.jobs.all (·.event.cursor.seq ≠ some 51)) = true)
  simp only [Bool.and_eq_true, decide_eq_true_eq, List.all_eq_true] at facts
  obtain ⟨⟨coverage, saved⟩, unread⟩ := facts
  refine ⟨r, run, coverage, saved, fun safe => ?_⟩
  rcases safe _ _ coverage 51 (by decide +kernel) (by decide) with ⟨job, mem, seq, -⟩ | past
  · exact unread job mem seq
  · exact absurd (past 52 saved) (by decide)

end HappyView.Consumer
