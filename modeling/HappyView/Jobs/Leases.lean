import HappyView.Foundation.FiniteMap
import HappyView.Foundation.Machine
import Mathlib.Algebra.Order.Ring.Int
import Mathlib.Data.String.Basic

/-!
# The job queue

Workers claim pending jobs under a lease, renew it while they run, and write progress and
the outcome under it. A recovery settles jobs whose lease ran out, and an operator pauses,
cancels and resumes jobs. All of them are single statements on the table of jobs; a recovery
is four of them, which compare with the time that it read at its start.

`JobStore` runs any number of processes' statements in any order.
-/

namespace HappyView.Jobs

open HappyView.Foundation

inductive JobStatus where
  | pending
  | running
  | cancelling
  | pausing
  | paused
  | completed
  | failed
  | cancelled
  deriving DecidableEq

def JobStatus.active : JobStatus → Bool
  | .running | .cancelling | .pausing => true
  | _ => false

structure Job where
  status : JobStatus := .pending
  progress : String := "\x7b\x7d"
  result : Option String := none
  error : Option String := none
  createdAt : String
  startedAt : Option String := none
  completedAt : Option String := none
  attempt : Nat := 0
  claimedBy : Option String := none
  leaseUntil : Option Int := none
  lostLeases : Nat := 0
  deriving DecidableEq

structure Lease where
  owner : String
  attempt : Nat
  deriving DecidableEq

structure Clock where
  millis : Int
  text : String
  deriving DecidableEq

/-- `LEASE`, in milliseconds. -/
def leaseMillis : Int := 60000

def maxLostLeases : Nat := 3

def Clock.leaseUntil (clock : Clock) : Int := clock.millis + leaseMillis

/-! ## Statements -/

/-- An `UPDATE`: which rows, and what it sets. -/
structure Statement where
  here : String → Job → Bool
  set : Job → Job

def Statement.row (st : Statement) (id : String) (job : Job) : Job :=
  if st.here id job then st.set job else job

/-- The statement of `hold_job`, and of `claim_next_job` once the job is picked. -/
def claimJob (id owner : String) (clock : Clock) : Statement where
  here row job := row = id && job.status = .pending
  set job :=
    { job with
      status := .running
      startedAt := some clock.text
      attempt := job.attempt + 1
      claimedBy := some owner
      leaseUntil := some clock.leaseUntil }

def Job.heldUnder (job : Job) (lease : Lease) : Bool :=
  job.claimedBy = some lease.owner && job.attempt = lease.attempt && job.status.active

def renewLease (id : String) (lease : Lease) (clock : Clock) : Statement where
  here row job := row = id && job.heldUnder lease
  set job := { job with leaseUntil := some clock.leaseUntil }

def updateProgress (id : String) (lease : Lease) (progress : String) : Statement where
  here row job := row = id && job.heldUnder lease
  set job := { job with progress := progress }

inductive Finish where
  | completed (result : String)
  | failed (error : String)
  | paused
  | cancelled
  deriving DecidableEq

def Finish.set (clock : Clock) (job : Job) : Finish → Job
  | .completed result =>
    { job with status := .completed, result := some result, completedAt := some clock.text }
  | .failed error =>
    { job with status := .failed, error := some error, completedAt := some clock.text }
  | .paused => { job with status := .paused }
  | .cancelled => { job with status := .cancelled, completedAt := some clock.text }

def finish (id : String) (lease : Lease) (finish : Finish) (clock : Clock) : Statement where
  here row job := row = id && job.heldUnder lease
  set job := { finish.set clock job with leaseUntil := none }

def JobStatus.completes : JobStatus → Bool
  | .completed | .failed | .cancelled => true
  | _ => false

def changeStatus (id : String) (old new : JobStatus) (clock : Clock) : Statement where
  here row job := row = id && job.status = old
  set job :=
    { job with
      status := new
      completedAt := if new.completes then some clock.text else job.completedAt }

/-- The changes that `cancel_job`, `pause_job` and `resume_job` ask for. -/
def operatorChange : JobStatus → JobStatus → Bool
  | .running, .cancelling | .pending, .cancelled | .paused, .cancelled => true
  | .running, .pausing => true
  | .paused, .pending => true
  | _, _ => false

/-! ## Recovery -/

/-- A row with no lease was claimed before there were leases, and reads as expired. -/
def Job.expired (job : Job) (now : Int) : Bool := job.leaseUntil.all (· < now)

def failure : String :=
  "the job's worker stopped " ++ toString maxLostLeases ++
    " times before it finished; it is not run again"

def Job.release (job : Job) : Job := { job with claimedBy := none, leaseUntil := none }

def settleCancelling (clock : Clock) : Statement where
  here _ job := job.status = .cancelling && job.expired clock.millis
  set job := { job.release with status := .cancelled, completedAt := some clock.text }

def settlePausing (clock : Clock) : Statement where
  here _ job := job.status = .pausing && job.expired clock.millis
  set job := { job.release with status := .paused }

def failLost (clock : Clock) : Statement where
  here _ job := job.status = .running && job.expired clock.millis &&
    maxLostLeases ≤ job.lostLeases + 1
  set job :=
    { job.release with
      status := .failed
      error := some failure
      completedAt := some clock.text
      lostLeases := job.lostLeases + 1 }

def requeueLost (clock : Clock) : Statement where
  here _ job := job.status = .running && job.expired clock.millis
  set job := { job.release with status := .pending, lostLeases := job.lostLeases + 1 }

/-- The four statements of `recover_expired_jobs`, in their order. -/
def recoveryStatements (clock : Clock) : List Statement :=
  [settleCancelling clock, settlePausing clock, failLost clock, requeueLost clock]

structure Recovery where
  clock : Clock
  ran : Nat
  deriving DecidableEq

/-! ## Runs -/

structure JobStore where
  jobs : AList fun _ : String => Job
  recoveries : AList fun _ : Nat => Recovery := ∅
  claims : List (String × Lease) := []
  /-- The runs that are over: the job was settled, queued again or claimed again. -/
  ended : List (String × Nat) := []
  requeues : String → Nat := fun _ => 0

inductive JobAction where
  | create (id createdAt : String)
  | claimNext (id owner : String) (clock : Clock)
  | hold (id owner : String) (clock : Clock)
  | renew (id : String) (lease : Lease) (clock : Clock)
  | progress (id : String) (lease : Lease) (progress : String)
  | finish (id : String) (lease : Lease) (finish : Finish) (clock : Clock)
  | change (id : String) (old new : JobStatus) (clock : Clock)
  | recover (r : Nat) (clock : Clock)
  | settle (r : Nat)
  | abandon (r : Nat)
  deriving DecidableEq

namespace JobStore

def ends (old new : Job) : Bool :=
  old.status.active && !new.status.active || old.attempt < new.attempt

def write (m : JobStore) (st : Statement) : JobStore :=
  { m with
    jobs := mapValues st.row m.jobs
    ended := ((m.jobs.entries.filter fun e => ends e.2 (st.row e.1 e.2)).map
      fun e => (e.1, e.2.attempt)) ++ m.ended
    requeues := fun id => m.requeues id + if (m.jobs.lookup id).any fun job =>
      job.status.active && (st.row id job).status = .pending then 1 else 0 }

def claim (m : JobStore) (id owner : String) (clock : Clock) : JobStore :=
  { m.write (claimJob id owner clock) with
    claims := match m.jobs.lookup id with
      | some job => if job.status = .pending then (id, ⟨owner, job.attempt + 1⟩) :: m.claims
        else m.claims
      | none => m.claims }

def next (m : JobStore) (id : String) : Bool :=
  (m.jobs.lookup id).any fun job => job.status = .pending && m.jobs.entries.all fun other =>
    other.2.status = .pending → job.createdAt ≤ other.2.createdAt

def step (m : JobStore) : JobAction → Option JobStore
  | .create id createdAt =>
    if m.jobs.lookup id = none then
      some { m with jobs := m.jobs.insert id { createdAt := createdAt } }
    else none
  | .claimNext id owner clock => if m.next id then some (m.claim id owner clock) else none
  | .hold id owner clock => some (m.claim id owner clock)
  | .renew id lease clock => some (m.write (renewLease id lease clock))
  | .progress id lease progress => some (m.write (updateProgress id lease progress))
  | .finish id lease outcome clock => some (m.write (Jobs.finish id lease outcome clock))
  | .change id old new clock =>
    if operatorChange old new then some (m.write (changeStatus id old new clock)) else none
  | .recover r clock =>
    if m.recoveries.lookup r = none then
      some { m with recoveries := m.recoveries.insert r ⟨clock, 0⟩ }
    else none
  | .settle r =>
    match m.recoveries.lookup r with
    | none => none
    | some recovery =>
      match (recoveryStatements recovery.clock)[recovery.ran]? with
      | some st => some
          { m.write st with
            recoveries := m.recoveries.insert r ⟨recovery.clock, recovery.ran + 1⟩ }
      | none => none
  | .abandon r => some { m with recoveries := m.recoveries.erase r }

def machine (jobs : AList fun _ : String => Job) : Machine JobStore JobAction where
  start := { jobs := jobs }
  step := step

end JobStore

end HappyView.Jobs
