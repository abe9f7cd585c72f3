import HappyView.Consumer.Sessions

/-!
# Refusals and renumbering

A server may refuse the cursor that a session asks for, or tell an open session with
`FutureCursor` that its seqs have started over. `run` carries what it learns from one session to
the next: a saved seq it must not resume from again, that it is to start at the tip, the first
ticket of the new numbering, before which nothing is saved.

Here the server may do anything: every refusal, every frame and every break of the connection is a
turn of its own, between any two of which the workers may move.
-/

namespace HappyView.Consumer.Live

open HappyView.Foundation

/-! ## What outlives a session -/

inductive ProtocolChoice where
  | auto
  | v1
  | v2
  deriving DecidableEq

structure Settings where
  host : String
  protocol : ProtocolChoice
  workers : Config

/-- Connection state carried across reconnects. -/
structure Session where
  choice : ProtocolChoice
  protocol : Protocol
  sentCursor : Option Int := none
  /-- A saved seq that was refused, or that belongs to a numbering the server no longer has.
  While it is the saved one, resumes go by the saved time. -/
  staleSeq : Option Int := none
  fromTip : Bool := false
  /-- The archive's tip that a gap replay resumed the stream at. -/
  gapResumedAt : Option Int := none
  unexplained400s : Nat := 0
  /-- The first ticket of the new numbering: nothing is saved before it is applied. -/
  saveBarrier : Option Nat := none

def Session.new (settings : Settings) : Session where
  choice := settings.protocol
  protocol := match settings.protocol with
    | .v1 => .v1
    | .auto | .v2 => .v2

def Session.load (session : Session) (stored : StoredCursor) : StoredCursor :=
  if stored.seq.isSome ∧ stored.seq = session.staleSeq then { stored with seq := none } else stored

inductive Rejection where
  | notFound
  | cursorTooOld
  | unknownDictionary
  | invalidRequest
  | unavailable
  | other (status : Nat)
  deriving DecidableEq

structure Refusal where
  rejection : Rejection
  loads : Bool := true
  /-- The sealed tip of the archive, if a replay of the gap can be started. -/
  gapReplay : Option Int := none

/-! ## What a session holds -/

inductive Frame (K : Type) where
  | event (event : Event K)
  | info (name : String)
  | error
  | skip

def Frame.parsed {K : Type} : Protocol → Frame K → Bool
  | .v2, .event e => e.cursor.seq.isSome
  | .v1, .event e => e.cursor.seq.isNone
  | .v2, .info _ | .v2, .error | _, .skip => true
  | .v1, .info _ | .v1, .error => false

structure Connection where
  /-- The rows it found, without a stale seq. -/
  stored : StoredCursor
  resume : Option Int
  floor : Option Int
  lastSaved : Option CursorPoint := none
  /-- No code reads this: the seq it resumed from, until the server disowns it. -/
  above : Option Int

inductive Ended where
  | collectionsChanged
  | closed
  | renumbered
  deriving DecidableEq

inductive Link where
  | down
  | reading (connection : Connection)
  | draining (connection : Connection) (ended : Ended)

def Link.connection : Link → Option Connection
  | .down => none
  | .reading connection | .draining connection _ => some connection

/-- How a save of the rows goes: a commit may be reported as failed and have taken effect. -/
inductive Saving where
  | done
  | failed
  | unreported
  deriving DecidableEq

/-! ## The state -/

/-- When an event was handed out: the server's notices of a new numbering before it, how often
the reader had left its place, the session, and the seq that session resumed from. -/
structure Mark where
  numbering : Nat
  rewinds : Nat
  session : Nat
  above : Option Int
  deriving DecidableEq

structure Dispatch (K : Type) where
  event : Event K
  mark : Mark

def Dispatch.seq {K : Type} (d : Dispatch K) : Option Int := d.event.cursor.seq

structure Save (K : Type) where
  dispatch : Dispatch K
  /-- The server's notices of a new numbering before the save. -/
  numbering : Nat

structure State (K : Type) where
  pool : Pool K := {}
  session : Session
  link : Link := .down
  stored : StoredCursor
  lastDispatched : Option Int := none
  /-- No code reads what follows. -/
  numbering : Nat := 0
  rewinds : Nat := 0
  sessions : Nat := 0
  /-- Every event handed to the pool; the index is its ticket. -/
  dispatched : List (Dispatch K) := []
  saves : List (Save K) := []

inductive Turn (K : Type) where
  | connect
  | fail
  | refuse (refusal : Refusal)
  | frame (frame : Frame K)
  | flush (saving : Saving)
  | close
  | collectionsChanged
  /-- The drain is over or timed out, and the session saves and returns. -/
  | finish (timedOut : Bool) (saving : Saving)
  | send
  | work (worker : Nat) (task : Task)

namespace State

variable {K : Type}

def resume (host : String) (s : State K) : Option Int :=
  if s.session.fromTip then none
  else match s.session.protocol with
    | .v2 => v2Resume ((s.session.load s.stored).resumeCursor host .v2) s.lastDispatched
    | .v1 => (s.session.load s.stored).resumeCursor host .v1

def subscribe (host : String) (s : State K) : State K :=
  { s with session := { s.session with sentCursor := s.resume host } }

def connect (host : String) (s : State K) : State K :=
  let floor := match s.session.protocol with
    | .v2 => seqCursor (s.resume host)
    | .v1 => none
  { s.subscribe host with
    session := { (s.subscribe host).session with unexplained400s := 0 }
    link := .reading
      { stored := s.session.load s.stored, resume := s.resume host, floor, above := floor }
    sessions := s.sessions + 1 }

/-! ## Refusals -/

/-- The reader gives up its place and takes another. -/
def rewind (s : State K) (lastDispatched : Option Int) : State K :=
  { s with lastDispatched, rewinds := s.rewinds + 1 }

/-- Stop resuming by seq, if there is a time to resume by instead; else only `toTip` goes on to
the live tip. Returns whether the next connection resumes differently. -/
def resumeWithoutSeq (s : State K) (loads toTip : Bool) : State K × Bool :=
  let sentTime := s.session.sentCursor.any (timestampCursorMin ≤ ·)
  let byTime := s.stored.timeUs.isSome && !sentTime
  if !loads then (s, false)
  else if !byTime && !toTip then (s, false)
  else ({ s.rewind none with
    session := { s.session with
      staleSeq := s.stored.seq
      fromTip := if byTime then s.session.fromTip else true } }, true)

def gapFloor (host : String) (s : State K) (loads : Bool) : Option Int :=
  if loads ∧ s.stored.host = some host then s.stored.seq else none

def handleRejection (host : String) (s : State K) (refusal : Refusal) : State K :=
  match refusal.rejection with
  | .notFound =>
    if s.session.choice = .auto ∧ s.session.protocol = .v2 then
      { s.rewind none with session := { s.session with protocol := .v1 } }
    else s
  | .cursorTooOld =>
    -- A tip that a gap replay resumed at is not planned for again.
    let floor :=
      if s.session.protocol = .v2 ∧
          (s.session.gapResumedAt.isNone ∨ s.session.sentCursor ≠ s.session.gapResumedAt) then
        s.gapFloor host refusal.loads
      else none
    match floor, refusal.gapReplay with
    | some afterSeq, some tip =>
      { s.rewind (some tip) with
        session := { s.session with
          staleSeq := some afterSeq, fromTip := false, gapResumedAt := some tip } }
    | _, _ => (s.resumeWithoutSeq refusal.loads true).1
  | .invalidRequest => { s with session := { s.session with fromTip := false } }
  | .other 400 =>
    let step := s.session.unexplained400s + 1
    let counted := { s with session := { s.session with unexplained400s := step } }
    let waits := { s with session := { s.session with
      unexplained400s := max step 3, fromTip := false } }
    if step = 1 then counted
    else if step = 2 ∧ s.session.sentCursor.any (· < timestampCursorMin) then
      match counted.resumeWithoutSeq refusal.loads false with
      | (resumed, true) => resumed
      | (_, false) => waits
    else waits
  | .unknownDictionary | .unavailable | .other _ => s

/-! ## The read loop -/

def dispatch (s : State K) (connection : Connection) (last : Option Int) (event : Event K) :
    Option (State K) :=
  (s.pool.read event).map fun pool =>
    { s with
      pool
      lastDispatched := last
      session := { s.session with fromTip := false }
      link := .reading connection
      dispatched := s.dispatched ++
        [⟨event, ⟨s.numbering, s.rewinds, s.sessions, connection.above⟩⟩] }

def receive (s : State K) (connection : Connection) (event : Event K) : Option (State K) :=
  match event.cursor.seq with
  | some n =>
    if connection.floor.any (n ≤ ·) then some s
    else s.dispatch { connection with floor := some n } (some n) event
  | none => s.dispatch connection s.lastDispatched event

/-- The seq resumed from is past the server's next one. With a saved time to go by, the session
ends and the next one resumes by it. -/
def futureCursor (s : State K) (connection : Connection) : State K :=
  let renumbered := { connection with floor := none, above := none }
  let sentSeq := connection.resume.any (· < timestampCursorMin)
  { s with
    lastDispatched := none
    session := { s.session with
      staleSeq := if connection.stored.seq.isSome then connection.stored.seq else s.session.staleSeq
      saveBarrier := some s.pool.watermark.nextTicket }
    link := if connection.stored.timeUs.isSome && sentSeq then .draining renumbered .renumbered
      else .reading renumbered
    numbering := s.numbering + 1 }

def read (s : State K) (connection : Connection) : Frame K → Option (State K)
  | .event event => s.receive connection event
  | .info name => some (if name = "FutureCursor" then s.futureCursor connection else s)
  | .error => some { s with link := .draining connection .closed }
  | .skip => some s

def flushPoint (s : State K) : Option CursorPoint :=
  match s.session.saveBarrier with
  | some ticket => s.pool.watermark.appliedIfRetired ticket
  | none => s.pool.watermark.applied

def save (host : String) (s : State K) (point : CursorPoint) : State K :=
  { s with
    stored := .save host point
    saves := s.saves ++ (s.dispatched[s.pool.watermark.front - 1]?.map (⟨·, s.numbering⟩)).toList }

def flush (host : String) (s : State K) (connection : Connection) (saving : Saving) :
    State K × Connection :=
  match s.flushPoint with
  | none => (s, connection)
  | some point =>
    let s := { s with session := { s.session with saveBarrier := none } }
    if connection.lastSaved = some point then (s, connection)
    else match saving with
      | .done => (s.save host point, { connection with lastSaved := some point })
      | .unreported => (s.save host point, connection)
      | .failed => (s, connection)

def finish (host : String) (s : State K) (connection : Connection) (ended : Ended)
    (saving : Saving) : State K :=
  let s := (s.flush host connection saving).1
  match ended with
  | .collectionsChanged => { s.rewind none with link := .down }
  | .closed | .renumbered => { s with link := .down }

/-- While an event is being dispatched the read loop does nothing else. -/
def step (settings : Settings) (s : State K) : Turn K → Option (State K)
  | .connect => match s.link with
    | .down => some (s.connect settings.host)
    | _ => none
  | .fail => match s.link with
    | .down => some (s.subscribe settings.host)
    | _ => none
  | .refuse refusal => match s.link with
    | .down => some ((s.subscribe settings.host).handleRejection settings.host refusal)
    | _ => none
  | .frame frame => match s.link with
    | .reading connection =>
      if s.pool.reader.isNone ∧ frame.parsed s.session.protocol then s.read connection frame
      else none
    | _ => none
  | .flush saving => match s.link with
    | .reading connection =>
      if s.pool.reader.isNone then
        let (s, connection) := s.flush settings.host connection saving
        some { s with link := .reading connection }
      else none
    | _ => none
  | .close => match s.link with
    | .reading connection =>
      if s.pool.reader.isNone then some { s with link := .draining connection .closed } else none
    | _ => none
  | .collectionsChanged => match s.link with
    | .reading connection =>
      if s.pool.reader.isNone then
        some { s with link := .draining connection .collectionsChanged }
      else none
    | _ => none
  | .finish timedOut saving => match s.link with
    | .draining connection ended =>
      if timedOut ∨ s.pool.watermark.inFlight = 0 then
        some (s.finish settings.host connection ended saving)
      else none
    | _ => none
  | .send => (s.pool.send settings.workers).map fun pool => { s with pool }
  | .work i task => (s.pool.work settings.workers i task).map fun pool => { s with pool }

end State

def live {K : Type} (settings : Settings) (stored : StoredCursor) :
    Machine (State K) (Turn K) where
  start := { session := .new settings, stored }
  step := State.step settings

end HappyView.Consumer.Live
