import HappyView.Jobs.Leases

/-!
# What a lease protects

`Moves` says what any statement can do to a row: attempts only grow, a job becomes active only by
a claim, and a lease is written only by a claim or a renewal.

The bound on lost leases rests on the third statement of a recovery having failed the jobs
that the fourth must not queue again. A lease that is written between the two and is already
over by the recovery's clock escapes that check.
-/

namespace HappyView.Jobs

open HappyView.Foundation

def JobAction.lease : JobAction → Option Int
  | .claimNext _ _ clock | .hold _ _ clock | .renew _ _ clock => some clock.leaseUntil
  | _ => none

def JobAction.worker : JobAction → Option (String × Lease)
  | .renew id lease _ | .progress id lease _ | .finish id lease _ _ => some (id, lease)
  | _ => none

/-! ## Rows -/

/-- What a statement that writes leases up to `lease` may do to a row. -/
structure Moves (lease : Option Int) (old new : Job) : Prop where
  attempt : old.attempt ≤ new.attempt
  woken : old.status.active = false → new.status.active = true → old.attempt < new.attempt
  lost : old.lostLeases ≤ new.lostLeases
  requeued : old.status.active = true → new.status = .pending →
    new.lostLeases = old.lostLeases + 1
  running : new.status = .running →
    (∃ time, lease = some time ∧ new.leaseUntil = some time) ∨
    old.status = .running ∧ new.lostLeases = old.lostLeases ∧ new.leaseUntil = old.leaseUntil

theorem Moves.refl (lease : Option Int) (job : Job) : Moves lease job job where
  attempt := le_rfl
  woken := by simp_all
  lost := le_rfl
  requeued := by
    intro active pending
    rw [pending] at active
    cases active
  running := fun running => .inr ⟨running, rfl, rfl⟩

variable {lease : Option Int}

theorem Statement.moves {st : Statement}
    (set : ∀ id job, st.here id job = true → Moves lease job (st.set job)) (id : String)
    (job : Job) : Moves lease job (st.row id job) := by
  unfold Statement.row
  split
  · exact set id job ‹_›
  · exact .refl lease job

theorem claimJob_moves (id owner : String) (clock : Clock) (row : String) (job : Job) :
    Moves (some clock.leaseUntil) job ((claimJob id owner clock).row row job) := by
  refine Statement.moves (fun row job here => ?_) row job
  simp only [claimJob, Bool.and_eq_true, decide_eq_true_eq] at here
  refine ⟨?_, ?_, le_rfl, ?_, fun _ => .inl ⟨_, rfl, rfl⟩⟩ <;> simp [claimJob, here.2]

theorem renewLease_moves (id : String) (held : Lease) (clock : Clock) (row : String) (job : Job) :
    Moves (some clock.leaseUntil) job ((renewLease id held clock).row row job) := by
  refine Statement.moves (fun row job here => ?_) row job
  have active : job.status.active = true := by
    simp_all [renewLease, Job.heldUnder]
  refine ⟨le_rfl, ?_, le_rfl, ?_, fun _ => .inl ⟨_, rfl, rfl⟩⟩
  · simp [renewLease, active]
  · intro _ pending
    rw [show job.status = .pending from pending] at active
    cases active

theorem updateProgress_moves (id : String) (held : Lease) (progress : String) (row : String)
    (job : Job) : Moves lease job ((updateProgress id held progress).row row job) := by
  refine Statement.moves (fun row job here => ?_) row job
  obtain ⟨attempt, woken, lost, requeued, running⟩ := Moves.refl lease job
  exact ⟨attempt, woken, lost, requeued, running⟩

theorem finish_moves (id : String) (held : Lease) (outcome : Finish) (clock : Clock)
    (row : String) (job : Job) : Moves lease job ((finish id held outcome clock).row row job) := by
  refine Statement.moves (fun row job here => ?_) row job
  cases outcome <;>
    exact ⟨le_rfl, by simp [finish, Finish.set, JobStatus.active], le_rfl,
      by simp [finish, Finish.set], by simp [finish, Finish.set]⟩

theorem changeStatus_moves {old new : JobStatus} (id : String) (clock : Clock)
    (asked : operatorChange old new = true) (row : String) (job : Job) :
    Moves lease job ((changeStatus id old new clock).row row job) := by
  refine Statement.moves (fun row job here => ?_) row job
  simp only [changeStatus, Bool.and_eq_true, decide_eq_true_eq] at here
  obtain ⟨-, rfl⟩ := here
  unfold operatorChange at asked
  split at asked
  case h_6 => cases asked
  all_goals
    rename_i status
    refine ⟨le_rfl, ?_, le_rfl, ?_, ?_⟩ <;> simp [changeStatus, status, JobStatus.active]

theorem recoveryStatements_moves {clock : Clock} {st : Statement}
    (mem : st ∈ recoveryStatements clock) (row : String) (job : Job) :
    Moves lease job (st.row row job) := by
  refine Statement.moves (fun row job here => ?_) row job
  simp only [recoveryStatements, List.mem_cons, List.not_mem_nil, or_false] at mem
  obtain rfl | rfl | rfl | rfl := mem <;>
    refine ⟨le_rfl, ?_, ?_, ?_, ?_⟩ <;>
    simp [settleCancelling, settlePausing, failLost, requeueLost, Job.release, JobStatus.active]

/-! ## Steps -/

namespace JobStore

variable {m m' : JobStore} {action : JobAction} {st : Statement}

inductive Step (m : JobStore) : JobAction → JobStore → Prop where
  | create {id createdAt : String} (free : m.jobs.lookup id = none) : Step m (.create id createdAt)
      { m with jobs := m.jobs.insert id { createdAt := createdAt } }
  | claim {action : JobAction} {id owner : String} {clock : Clock}
      (lease : action.lease = some clock.leaseUntil) (worker : action.worker = none) :
      Step m action (m.claim id owner clock)
  | write {action : JobAction} {st : Statement}
      (moves : ∀ id job, Moves action.lease job (st.row id job))
      (lost : ∀ job, (st.set job).lostLeases = job.lostLeases)
      (fenced : ∀ id lease, action.worker = some (id, lease) → ∀ row job,
        st.here row job = true → row = id ∧ job.heldUnder lease = true) :
      Step m action (m.write st)
  | recover {r : Nat} {clock : Clock} : Step m (.recover r clock)
      { m with recoveries := m.recoveries.insert r ⟨clock, 0⟩ }
  | settle {r : Nat} {recovery : Recovery} {st : Statement}
      (held : m.recoveries.lookup r = some recovery)
      (next : (recoveryStatements recovery.clock)[recovery.ran]? = some st) : Step m (.settle r)
      { m.write st with recoveries := m.recoveries.insert r ⟨recovery.clock, recovery.ran + 1⟩ }
  | abandon {r : Nat} : Step m (.abandon r) { m with recoveries := m.recoveries.erase r }

theorem step_cases (h : m.step action = some m') : Step m action m' := by
  cases action with
  | create id createdAt =>
    obtain ⟨free, ⟨⟩⟩ := Option.ite_none_right_eq_some.mp h
    exact .create free
  | claimNext id owner clock =>
    obtain ⟨-, ⟨⟩⟩ := Option.ite_none_right_eq_some.mp h
    exact .claim rfl rfl
  | hold id owner clock =>
    cases h
    exact .claim rfl rfl
  | renew id lease clock =>
    cases h
    refine .write (renewLease_moves id lease clock) (fun _ => rfl) ?_
    rintro _ _ ⟨⟩ row job here
    simpa [renewLease] using here
  | progress id lease progress =>
    cases h
    refine .write (updateProgress_moves id lease progress) (fun _ => rfl) ?_
    rintro _ _ ⟨⟩ row job here
    simpa [updateProgress] using here
  | finish id lease outcome clock =>
    cases h
    refine .write (finish_moves id lease outcome clock) (by cases outcome <;> exact fun _ => rfl) ?_
    rintro _ _ ⟨⟩ row job here
    simpa [Jobs.finish] using here
  | change id old new clock =>
    obtain ⟨asked, ⟨⟩⟩ := Option.ite_none_right_eq_some.mp h
    exact .write (changeStatus_moves id clock asked) (fun _ => rfl) (by simp [JobAction.worker])
  | recover r clock =>
    obtain ⟨-, ⟨⟩⟩ := Option.ite_none_right_eq_some.mp h
    exact .recover
  | settle r =>
    simp only [step] at h
    split at h
    · cases h
    · rename_i recovery held
      split at h <;> cases h
      rename_i st next
      exact .settle held next
  | abandon r =>
    cases h
    exact .abandon

/-! ## What holds in every order -/

def Past (n : Nat) (job : Job) : Prop :=
  n < job.attempt ∨ n = job.attempt ∧ job.status.active = false

theorem Past.moves {n : Nat} {old new : Job} (past : Past n old) (moves : Moves lease old new) :
    Past n new := by
  have attempt := moves.attempt
  rcases past with less | ⟨rfl, idle⟩
  · exact .inl (by omega)
  · cases active : new.status.active with
    | true => exact .inl (moves.woken idle active)
    | false =>
      rcases Nat.lt_or_eq_of_le attempt with less | same
      · exact .inl less
      · exact .inr ⟨same, active⟩

theorem Past.of_ends {old new : Job} (moves : Moves lease old new) (ended : ends old new = true) :
    Past old.attempt new := by
  have attempt := moves.attempt
  simp only [ends, Bool.or_eq_true, Bool.and_eq_true, Bool.not_eq_true', decide_eq_true_eq] at ended
  rcases ended with ⟨-, idle⟩ | less
  · rcases Nat.lt_or_eq_of_le attempt with less | same
    · exact .inl less
    · exact .inr ⟨same, idle⟩
  · exact .inl less

def Later (later earlier : String × Lease) : Prop :=
  later.1 = earlier.1 → earlier.2.attempt < later.2.attempt

structure Inv (m : JobStore) : Prop where
  ended : ∀ id n, (id, n) ∈ m.ended → ∃ job, m.jobs.lookup id = some job ∧ Past n job
  claims : m.claims.Pairwise Later
  claimed : ∀ id lease, (id, lease) ∈ m.claims →
    ∃ job, m.jobs.lookup id = some job ∧ lease.attempt ≤ job.attempt
  requeues : ∀ id, m.requeues id ≤ (m.jobs.lookup id).elim 0 Job.lostLeases

theorem lookup_write (id : String) :
    (m.write st).jobs.lookup id = (m.jobs.lookup id).map (st.row id) :=
  lookup_mapValues _ _ _

theorem Inv.write (inv : Inv m) (moves : ∀ id job, Moves lease job (st.row id job)) :
    Inv (m.write st) where
  ended := by
    intro id n mem
    rcases List.mem_append.mp mem with new | old
    · obtain ⟨entry, found, same⟩ := List.mem_map.mp new
      cases same
      obtain ⟨held, ended⟩ := List.mem_filter.mp found
      refine ⟨_, ?_, .of_ends (moves entry.1 entry.2) ended⟩
      rw [lookup_write, AList.mem_lookup_iff.mpr held]
      rfl
    · obtain ⟨job, held, past⟩ := inv.ended id n old
      exact ⟨_, by rw [lookup_write, held]; rfl, past.moves (moves id job)⟩
  claims := inv.claims
  claimed := by
    intro id claim mem
    obtain ⟨job, held, le⟩ := inv.claimed id claim mem
    exact ⟨_, by rw [lookup_write, held]; rfl, le.trans (moves id job).attempt⟩
  requeues := by
    intro id
    have before := inv.requeues id
    rw [lookup_write]
    simp only [JobStore.write]
    cases held : m.jobs.lookup id with
    | none => simpa [held] using before
    | some job =>
      have lost := (moves id job).lost
      simp only [held, Option.elim_some] at before
      simp only [Option.any_some, Option.map_some, Option.elim_some]
      split
      · rename_i again
        simp only [Bool.and_eq_true, decide_eq_true_eq] at again
        rw [(moves id job).requeued again.1 again.2]
        omega
      · omega

theorem lookup_claim {id owner : String} {clock : Clock} (other : String) :
    (m.claim id owner clock).jobs.lookup other =
      (m.jobs.lookup other).map ((claimJob id owner clock).row other) :=
  lookup_write other

theorem claims_claim (m : JobStore) (id owner : String) (clock : Clock) :
    (m.claim id owner clock).claims = m.claims ∨
    ∃ job, m.jobs.lookup id = some job ∧ job.status = .pending ∧
      (m.claim id owner clock).claims = (id, ⟨owner, job.attempt + 1⟩) :: m.claims := by
  unfold claim
  split
  · rename_i job held
    split
    · exact .inr ⟨job, held, ‹_›, rfl⟩
    · exact .inl rfl
  · exact .inl rfl

theorem Inv.claim (inv : Inv m) (id owner : String) (clock : Clock) :
    Inv (m.claim id owner clock) := by
  have wrote := inv.write (claimJob_moves id owner clock)
  obtain same | ⟨job, held, pending, new⟩ := claims_claim m id owner clock
  · exact ⟨wrote.ended, same ▸ wrote.claims, same ▸ wrote.claimed, wrote.requeues⟩
  · refine ⟨wrote.ended, ?_, ?_, wrote.requeues⟩
    · rw [new]
      refine List.pairwise_cons.mpr ⟨?_, wrote.claims⟩
      rintro ⟨other, lease⟩ mem same
      obtain ⟨job', held', le⟩ := inv.claimed other lease mem
      cases same
      cases held.symm.trans held'
      exact Nat.lt_succ_of_le le
    · rw [new]
      intro other lease mem
      rcases List.mem_cons.mp mem with same | mem
      · cases same
        refine ⟨(claimJob id owner clock).row id job, ?_, ?_⟩
        · rw [lookup_claim, held]
          rfl
        · simp [Statement.row, claimJob, pending]
      · exact wrote.claimed other lease mem

theorem Inv.step (inv : Inv m) (step : Step m action m') : Inv m' := by
  cases step with
  | @create id createdAt free =>
    have other {id' : String} {job : Job} (held : m.jobs.lookup id' = some job) :
        (m.jobs.insert id { createdAt := createdAt }).lookup id' = some job := by
      rw [AList.lookup_insert_ne, held]
      rintro rfl
      rw [free] at held
      cases held
    refine ⟨?_, inv.claims, ?_, ?_⟩
    · intro id' n mem
      obtain ⟨job, held, past⟩ := inv.ended id' n mem
      exact ⟨job, other held, past⟩
    · intro id' lease mem
      obtain ⟨job, held, le⟩ := inv.claimed id' lease mem
      exact ⟨job, other held, le⟩
    · intro id'
      have before := inv.requeues id'
      by_cases same : id' = id
      · subst same
        simpa [free] using before
      · simpa [same] using before
  | claim lease worker => exact inv.claim _ _ _
  | write moves lost fenced => exact inv.write moves
  | recover => exact ⟨inv.ended, inv.claims, inv.claimed, inv.requeues⟩
  | @settle r recovery st held next =>
    have moves : ∀ id job, Moves none job (st.row id job) :=
      recoveryStatements_moves (List.mem_of_getElem? next)
    have wrote := inv.write moves
    exact ⟨wrote.ended, wrote.claims, wrote.claimed, wrote.requeues⟩
  | abandon => exact ⟨inv.ended, inv.claims, inv.claimed, inv.requeues⟩

theorem Inv.fenced {id : String} {held : Lease} (inv : Inv m) (ended : (id, held.attempt) ∈ m.ended)
    (own : action.worker = some (id, held)) (step : Step m action m') : m'.jobs = m.jobs := by
  cases step with
  | create free => cases own
  | claim lease worker =>
    rw [worker] at own
    cases own
  | @write _ st moves lost fenced =>
    refine mapValues_eq_self fun row job found => ?_
    unfold Statement.row
    split
    · rename_i here
      obtain ⟨rfl, under⟩ := fenced id held own row job here
      obtain ⟨job', found', past⟩ := inv.ended row held.attempt ended
      cases found.symm.trans found'
      simp only [Job.heldUnder, Bool.and_eq_true, decide_eq_true_eq] at under
      rcases past with less | ⟨-, idle⟩
      · omega
      · rw [under.2] at idle
        cases idle
    · rfl
  | recover => rfl
  | settle held next => cases own
  | abandon => rfl

theorem settle_live {r : Nat} {recovery : Recovery}
    (held : m.recoveries.lookup r = some recovery) (h : m.step (.settle r) = some m') {id : String}
    {job : Job} (found : m.jobs.lookup id = some job)
    (live : job.expired recovery.clock.millis = false) : m'.jobs.lookup id = some job := by
  simp only [step, held] at h
  split at h <;> cases h
  rename_i st next
  have mem := List.mem_of_getElem? next
  have spared : st.here id job = false := by
    simp only [recoveryStatements, List.mem_cons, List.not_mem_nil, or_false] at mem
    obtain rfl | rfl | rfl | rfl := mem <;>
      simp [settleCancelling, settlePausing, failLost, requeueLost, live]
  rw [lookup_write, found, Option.map_some, Statement.row, spared]
  rfl

/-! ## How often a job is queued again -/

/-- A lease is not written so that it is already over for a recovery whose fourth statement is
still to run. -/
def Timely (m : JobStore) (action : JobAction) : Prop :=
  ∀ time ∈ action.lease, ∀ entry ∈ m.recoveries.entries, entry.2.ran = 3 →
    entry.2.clock.millis ≤ time

instance (m : JobStore) (action : JobAction) : Decidable (Timely m action) :=
  inferInstanceAs (Decidable (∀ time ∈ action.lease, _))

/-- What the third statement of a recovery leaves to the fourth may be queued again. -/
structure Bounded (m : JobStore) : Prop where
  spared : ∀ r recovery, m.recoveries.lookup r = some recovery → recovery.ran = 3 →
    ∀ id job, m.jobs.lookup id = some job → job.status = .running →
      job.expired recovery.clock.millis = true → job.lostLeases + 1 < maxLostLeases
  few : ∀ id, m.requeues id < maxLostLeases

theorem Bounded.write (bounded : Bounded m)
    (moves : ∀ id job, Moves action.lease job (st.row id job)) (timely : Timely m action)
    {r : Nat} {recovery : Recovery} (held : m.recoveries.lookup r = some recovery)
    (waits : recovery.ran = 3) {id : String} {job : Job}
    (found : (m.write st).jobs.lookup id = some job) (running : job.status = .running)
    (expired : job.expired recovery.clock.millis = true) : job.lostLeases + 1 < maxLostLeases := by
  rw [lookup_write] at found
  obtain ⟨old, before, rfl⟩ := Option.map_eq_some_iff.mp found
  rcases (moves id old).running running with ⟨time, wrote, lease⟩ | ⟨ran, lost, lease⟩
  · have le := timely time wrote ⟨r, recovery⟩ (AList.mem_lookup_iff.mp held) waits
    simp only [Job.expired, lease, Option.all_some, decide_eq_true_eq] at expired
    exact absurd expired (Int.not_lt.mpr le)
  · rw [lost]
    refine bounded.spared r recovery held waits id old before ran ?_
    simpa only [Job.expired, lease] using expired

theorem requeues_write (moves : ∀ id job, Moves lease job (st.row id job))
    (lost : ∀ job, (st.set job).lostLeases = job.lostLeases) (id : String) :
    (m.write st).requeues id = m.requeues id := by
  simp only [JobStore.write]
  rw [if_neg, Nat.add_zero]
  intro again
  obtain ⟨job, -, both⟩ := (Option.any_eq_true _ _).mp again
  simp only [Bool.and_eq_true, decide_eq_true_eq] at both
  have more := (moves id job).requeued both.1 both.2
  have same : (st.row id job).lostLeases = job.lostLeases := by
    unfold Statement.row
    split
    · exact lost job
    · rfl
  omega

theorem next_cases {clock : Clock} {n : Nat} (next : (recoveryStatements clock)[n]? = some st) :
    n = 0 ∧ st = settleCancelling clock ∨ n = 1 ∧ st = settlePausing clock ∨
      n = 2 ∧ st = failLost clock ∨ n = 3 ∧ st = requeueLost clock := by
  match n, next with
  | 0, next | 1, next | 2, next | 3, next => simp_all [recoveryStatements]
  | n + 4, next => simp [recoveryStatements] at next

theorem Bounded.requeue {r : Nat} {recovery : Recovery} (bounded : Bounded m) (inv : Inv m)
    (held : m.recoveries.lookup r = some recovery)
    (next : (recoveryStatements recovery.clock)[recovery.ran]? = some st) (id : String) :
    (m.write st).requeues id < maxLostLeases := by
  have before := bounded.few id
  simp only [JobStore.write]
  split
  · rename_i again
    obtain ⟨job, found, both⟩ := (Option.any_eq_true _ _).mp again
    simp only [Bool.and_eq_true, decide_eq_true_eq] at both
    obtain ⟨active, pending⟩ := both
    by_cases here : st.here id job = true
    · rw [Statement.row, if_pos here] at pending
      obtain ⟨-, rfl⟩ | ⟨-, rfl⟩ | ⟨-, rfl⟩ | ⟨waits, rfl⟩ := next_cases next
      · cases pending
      · cases pending
      · cases pending
      · simp only [requeueLost, Bool.and_eq_true, decide_eq_true_eq] at here
        have spared := bounded.spared r recovery held waits id job found here.1 here.2
        have counted := inv.requeues id
        simp only [found, Option.elim_some] at counted
        omega
    · -- A row that the statement does not match stays active.
      rw [Statement.row, if_neg here] at pending
      rw [pending] at active
      cases active
  · exact before

theorem Bounded.step (bounded : Bounded m) (inv : Inv m) (timely : Timely m action)
    (step : Step m action m') : Bounded m' := by
  cases step with
  | @create id createdAt free =>
    refine ⟨?_, bounded.few⟩
    intro r recovery held waits id' job found running expired
    rcases lookup_insert_cases found with ⟨-, rfl⟩ | found
    · cases running
    · exact bounded.spared r recovery held waits id' job found running expired
  | @claim _ id owner clock lease worker =>
    have moves : ∀ row job, Moves action.lease job ((claimJob id owner clock).row row job) :=
      lease ▸ claimJob_moves id owner clock
    refine ⟨?_, ?_⟩
    · intro r recovery held waits id' job found running expired
      exact bounded.write moves timely held waits found running expired
    · intro id'
      exact (requeues_write moves (fun _ => rfl) id').trans_lt (bounded.few id')
  | write moves lost fenced =>
    refine ⟨?_, ?_⟩
    · intro r recovery held waits id' job found running expired
      exact bounded.write moves timely held waits found running expired
    · intro id'
      exact (requeues_write moves lost id').trans_lt (bounded.few id')
  | @recover r clock =>
    refine ⟨?_, bounded.few⟩
    intro r' recovery held waits
    rcases lookup_insert_cases held with ⟨-, rfl⟩ | held
    · cases waits
    · exact bounded.spared r' recovery held waits
  | @settle r recovery st held next =>
    refine ⟨?_, bounded.requeue inv held next⟩
    intro r' recovery' held' waits id job found running expired
    have moves : ∀ id job, Moves (JobAction.settle r).lease job (st.row id job) :=
      recoveryStatements_moves (List.mem_of_getElem? next)
    rcases lookup_insert_cases held' with ⟨-, rfl⟩ | held'
    · -- The third statement has just run: what it left running is not lost too often.
      obtain ⟨first, -⟩ | ⟨first, -⟩ | ⟨-, rfl⟩ | ⟨fourth, -⟩ := next_cases next
      · simp [first] at waits
      · simp [first] at waits
      · obtain ⟨old, -, rfl⟩ := Option.map_eq_some_iff.mp ((lookup_write id).symm.trans found)
        by_cases here : (failLost recovery.clock).here id old = true
        · rw [Statement.row, if_pos here] at running
          cases running
        · rw [Statement.row, if_neg here] at running expired ⊢
          simp only [failLost, running, decide_true, Bool.true_and] at here
          simpa [expired] using here
      · simp [fourth] at waits
    · exact bounded.write moves timely held' waits found running expired
  | @abandon r =>
    refine ⟨?_, bounded.few⟩
    intro r' recovery held waits
    exact bounded.spared r' recovery (lookup_erase_some held).2 waits

/-! ## Every run -/

/-- In every order of statements, with all clocks: attempts grow with each claim, and each has
one owner; a run that is over changes no job; a recovery leaves a live lease alone. If no
lease is over when it is written, as far as a recovery under way can tell, a job is queued
again for a lost lease less than `maxLostLeases` times. -/
theorem lease_fencing (jobs : AList fun _ : String => Job) (actions : List JobAction)
    (m : JobStore) (run : (machine jobs).run actions = some m) :
    m.claims.Pairwise Later ∧
    (∀ id first second, (id, first) ∈ m.claims → (id, second) ∈ m.claims →
      first.attempt = second.attempt → first = second) ∧
    (∀ id held action m', (id, held.attempt) ∈ m.ended → action.worker = some (id, held) →
      m.step action = some m' → m'.jobs = m.jobs) ∧
    (∀ r recovery m' id job, m.recoveries.lookup r = some recovery →
      m.step (.settle r) = some m' → m.jobs.lookup id = some job →
      job.expired recovery.clock.millis = false → m'.jobs.lookup id = some job) ∧
    ((machine jobs).Along Timely actions → ∀ id, m.requeues id ≤ maxLostLeases - 1) := by
  have first : Inv (machine jobs).start := ⟨by simp [machine], by simp [machine], by simp [machine],
    by simp [machine]⟩
  have inv : Inv m :=
    Machine.induct (P := fun _ m => Inv m) first
      (fun _ _ _ _ inv step => inv.step (step_cases step)) run
  refine ⟨inv.claims, ?_, ?_, ?_, ?_⟩
  · intro id one other mem mem' same
    have apart : m.claims.Pairwise fun a b => a.1 = b.1 → a.2.attempt ≠ b.2.attempt :=
      inv.claims.imp fun later sameJob => (later sameJob).ne'
    have symmetric : Std.Symm fun a b : String × Lease => a.1 = b.1 → a.2.attempt ≠ b.2.attempt :=
      ⟨fun a b apart sameJob => (apart sameJob.symm).symm⟩
    by_contra distinct
    exact apart.forall mem mem' (by simpa using distinct) rfl same
  · intro id held action m' ended own step
    exact inv.fenced ended own (step_cases step)
  · intro r recovery m' id job held step found live
    exact settle_live held step found live
  · intro timely id
    have both : Inv m ∧ Bounded m := by
      refine Machine.induct_along (P := fun m => Inv m ∧ Bounded m) ⟨first, ?_⟩ ?_ timely run
      · exact ⟨by simp [machine], fun _ => by simp [machine, maxLostLeases]⟩
      · rintro m action m' ⟨inv, bounded⟩ timely step
        exact ⟨inv.step (step_cases step), bounded.step inv timely (step_cases step)⟩
    exact Nat.le_sub_one_of_lt (both.2.few id)

/-- A recovery with the clock at `millis`, from its start to its end. -/
def recovers (r : Nat) (millis : Int) : List JobAction :=
  [.recover r ⟨millis, ""⟩, .settle r, .settle r, .settle r, .settle r]

def stopsThrice : List JobAction :=
  .create "j" "" :: .claimNext "j" "a" ⟨0, ""⟩ :: recovers 1 100000 ++
    .claimNext "j" "a" ⟨100000, ""⟩ :: recovers 2 200000 ++
    .claimNext "j" "b" ⟨200000, ""⟩ :: recovers 3 300000

theorem lease_fencing_stopsThrice :
    ∃ m, (machine ∅).run stopsThrice = some m ∧
      (m.jobs.lookup "j").map Job.status = some .failed ∧ m.requeues "j" = 2 ∧
      m.requeues "j" ≤ maxLostLeases - 1 := by
  have ran : ((machine ∅).run stopsThrice).any (fun m => decide
      ((m.jobs.lookup "j").map Job.status = some .failed ∧ m.requeues "j" = 2)) = true := by
    decide +kernel
  obtain ⟨m, run, failed⟩ := (Option.any_eq_true _ _).mp ran
  obtain ⟨failed, twice⟩ := of_decide_eq_true failed
  have timely : (machine ∅).Along Timely stopsThrice := by decide +kernel
  exact ⟨m, run, failed, twice, (lease_fencing ∅ stopsThrice m run).2.2.2.2 timely "j"⟩

/-- The third recovery has run three of its statements when a claim arrives whose time was read
a hundred seconds before the recovery's. -/
def lateClaim : List JobAction :=
  .create "j" "" :: .claimNext "j" "a" ⟨0, ""⟩ :: recovers 1 100000 ++
    .claimNext "j" "a" ⟨100000, ""⟩ :: recovers 2 200000 ++
    [.recover 3 ⟨300000, ""⟩, .settle 3, .settle 3, .settle 3, .claimNext "j" "b" ⟨200000, ""⟩,
      .settle 3]

/-- The job has lost its worker three times and is pending again. -/
theorem requeued_thrice :
    ∃ m, (machine ∅).run lateClaim = some m ∧
      (m.jobs.lookup "j").map (fun job => (job.status, job.lostLeases)) =
        some (.pending, maxLostLeases) ∧
      ¬ m.requeues "j" ≤ maxLostLeases - 1 := by
  have ran : ((machine ∅).run lateClaim).any (fun m => decide
      ((m.jobs.lookup "j").map (fun job => (job.status, job.lostLeases)) =
        some (.pending, maxLostLeases) ∧ ¬ m.requeues "j" ≤ maxLostLeases - 1)) = true := by
    decide +kernel
  obtain ⟨m, run, again⟩ := (Option.any_eq_true _ _).mp ran
  exact ⟨m, run, of_decide_eq_true again⟩

end JobStore

end HappyView.Jobs
