import HappyView.Error
import HappyView.Foundation.Chain
import HappyView.Foundation.Machine
import HappyView.Tid
import Mathlib.Data.List.AList
import Mathlib.Data.List.Sort

/-!
# The writer set of a space

The space host keeps a row for each repo that has written to the space, stamped with a space
revision, a TID greater than the one before it. `record` reports a repo's new state;

`record` is a sequence of statements on the caller's connection: it locks the space, reads
the repo's row, reads the largest space revision, and writes the row. Most callers run it
in a transaction, which holds the lock to its end and may record several repos;
`adopt_synced_commit` runs it on a plain connection, where each statement stands alone and
the lock is gone with the statement that took it. `writers` is the machine of all these
connections to one space, with one action for each statement.
-/

namespace HappyView.Spaces.Writers

open HappyView.Foundation

inductive DatabaseBackend where
  | sqlite
  | postgres
  deriving DecidableEq

def maxRevClockSkewMicros : Nat := 5 * 60 * 1000000

/-- What a caller of `record` says of a repo. -/
structure Report where
  repoDid : String
  rev : String
  hash : List UInt8
  deriving DecidableEq

structure Writer extends Report where
  spaceRev : String
  deriving DecidableEq

/-- A row as it was written, with the space revision named as its predecessor: what an
`Advanced` result carries. -/
structure Advance extends Writer where
  prevSpaceRev : Option String
  deriving DecidableEq

/-! ## The statements of `record` -/

def checkRev (rev : String) (now : Nat) : Except AppError Unit := do
  let revMicros ← require (.badRequest "rev is not a TID") (Tid.tidToUnixMicroseconds rev)
  ensure (.xrpcError 400 "FutureRev" "the repo revision exceeds the permitted clock skew")
    (revMicros ≤ now + maxRevClockSkewMicros)

/-- The report is not newer than the row held. TIDs sort as strings in time order. -/
def isStale (rows : List Writer) (report : Report) : Bool :=
  (rows.find? (·.repoDid = report.repoDid)).any (report.rev ≤ ·.rev)

def maxSpaceRev (rows : List Writer) : Option String := (rows.map (·.spaceRev)).max?

/-- `now` is the TID drawn from the clock; one past `prev` if the clock has not moved on. -/
def nextSpaceRev (prev : Option String) (now : String) : String :=
  match prev.bind Tid.tidToNumber with
  | some prev =>
    if (Tid.tidToNumber now).any (· ≤ prev) then Tid.tidFromNumber ((prev + 1) % 2 ^ 64) else now
  | none => now

def upsert (rows : List Writer) (row : Writer) : List Writer := Chain.replace (·.repoDid) rows row

inductive Recorded where
  /-- The repo moved forward and the space revision advanced with it. -/
  | advanced (spaceRev : String) (prevSpaceRev : Option String)
  | stale
  deriving DecidableEq

/-- The result and the table after it, when no other connection comes between the
statements. -/
def record (rows : List Writer) (report : Report) (now : Nat) (tid : String) :
    Except AppError (Recorded × List Writer) := do
  checkRev report.rev now
  if isStale rows report then return (.stale, rows)
  let prev := maxSpaceRev rows
  let spaceRev := nextSpaceRev prev tid
  return (.advanced spaceRev prev, upsert rows ⟨report, spaceRev⟩)

/-- One page of the writers, in the order their updates were sequenced. -/
def list (rows : List Writer) (after : Option String) (limit : Nat) : List Writer :=
  let rows := rows.filter fun row => after.all (· < row.spaceRev)
  (rows.insertionSort fun a b => a.spaceRev ≤ b.spaceRev).take limit

/-! ## Connections -/

inductive Phase where
  | idle
  | checked (report : Report)
  | locked (report : Report)
  | current (report : Report)
  | sequenced (report : Report) (prev : Option String)
  | stamped (advance : Advance)
  deriving DecidableEq

structure Session where
  transactional : Bool
  phase : Phase := .idle
  pending : List Advance := []
  deriving DecidableEq

structure State where
  rows : List Writer := []
  lock : Option Nat := none
  sessions : AList fun _ : Nat => Session := ∅
  log : List Advance := []

inductive Task where
  | record (report : Report) (now : Nat)
  | lock
  | readHeld
  | readMax
  | stamp (us clockId : Nat)
  | upsert
  | commit
  deriving DecidableEq

inductive Action where
  | connect (session : Nat) (transactional : Bool)
  | work (session : Nat) (task : Task)
  /-- A connection goes back to the pool; an open transaction is rolled back. -/
  | close (session : Nat)
  deriving DecidableEq

def applied (rows : List Writer) (new : List Advance) : List Writer :=
  new.foldl (fun rows a => upsert rows a.toWriter) rows

/-- A connection sees its own writes. -/
def Session.view (c : Session) (rows : List Writer) : List Writer := applied rows c.pending

namespace State

def put (s : State) (i : Nat) (c : Session) : State := { s with sessions := s.sessions.insert i c }

def publish (s : State) (new : List Advance) : State :=
  { s with rows := applied s.rows new, log := s.log ++ new }

def disconnect (s : State) (i : Nat) : State :=
  { s with sessions := s.sessions.erase i, lock := if s.lock = some i then none else s.lock }

/-- A transaction waits for the lock on both backends, since on SQLite only one that
writes is open at a time. A plain connection asks for it on Postgres only. -/
def mayLock (backend : DatabaseBackend) (s : State) (i : Nat) (c : Session) : Bool :=
  if c.transactional then s.lock = none ∨ s.lock = some i
  else backend = .sqlite ∨ s.lock = none

/-- A plain write waits for a transaction: on SQLite for any, on Postgres for one that has
written the same row. -/
def mayWrite (backend : DatabaseBackend) (s : State) (repo : String) : Bool :=
  match s.lock.bind s.sessions.lookup, backend with
  | none, _ => true
  | some _, .sqlite => false
  | some c, .postgres => c.pending.all (·.repoDid ≠ repo)

def work (backend : DatabaseBackend) (s : State) (i : Nat) (c : Session) : Task → Option State
  | .record report now => match c.phase, checkRev report.rev now with
    | .idle, .ok () => some (s.put i { c with phase := .checked report })
    | .idle, .error _ => some s
    | _, _ => none
  | .lock => match c.phase with
    | .checked report =>
      if s.mayLock backend i c then
        some { s.put i { c with phase := .locked report } with
          lock := if c.transactional then some i else s.lock }
      else none
    | _ => none
  | .readHeld => match c.phase with
    | .locked report =>
      let phase := if isStale (c.view s.rows) report then .idle else .current report
      some (s.put i { c with phase })
    | _ => none
  | .readMax => match c.phase with
    | .current report =>
      some (s.put i { c with phase := .sequenced report (maxSpaceRev (c.view s.rows)) })
    | _ => none
  | .stamp us clockId => match c.phase with
    | .sequenced report prev =>
      let spaceRev := nextSpaceRev prev (Tid.tidFromParts us clockId)
      some (s.put i { c with phase := .stamped ⟨⟨report, spaceRev⟩, prev⟩ })
    | _ => none
  | .upsert => match c.phase with
    | .stamped a =>
      if c.transactional then
        some (s.put i { c with phase := .idle, pending := c.pending ++ [a] })
      else if s.mayWrite backend a.repoDid then
        some ((s.publish [a]).put i { c with phase := .idle })
      else none
    | _ => none
  | .commit =>
    if c.transactional ∧ c.phase = .idle then some ((s.publish c.pending).disconnect i) else none

def step (backend : DatabaseBackend) (s : State) : Action → Option State
  | .connect i transactional =>
    if s.sessions.lookup i = none then some (s.put i { transactional }) else none
  | .work i task => (s.sessions.lookup i).bind fun c => s.work backend i c task
  | .close i => some (s.disconnect i)

end State

def writers (backend : DatabaseBackend) : Machine State Action where
  start := {}
  step := State.step backend

def recordTasks (report : Report) (now us clockId : Nat) : List Task :=
  [.record report now, .lock, .readHeld, .readMax, .stamp us clockId, .upsert]

end HappyView.Spaces.Writers
