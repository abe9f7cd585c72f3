import HappyView.Consumer.Workers
import Mathlib.Data.List.Nodup

/-!
# Ordering and settlement of the worker pool

What a worker leaves in the log is what applying its jobs one after the other would leave:
`Serial` is that sequential reference, and `Worker.Served` says the worker's part of the log is a
serial log of the jobs it is done with, followed by the attempts made on the job in hand.
-/

namespace HappyView.Consumer

open HappyView.Foundation

variable {K : Type}

/-! ## The sequential reference -/

inductive Attempts (delays : List Nat) (job : Job K) : List Nat → List (Entry K) → Prop where
  | start : Attempts delays job delays []
  | failed {delay : Nat} {rest : List Nat} {es : List (Entry K)} {o : Outcome} {error : String}
      (so_far : Attempts delays job (delay :: rest) es) (failure : o.failure = some error) :
      Attempts delays job rest (es ++ [.attempt job, .outcome job o])
  | unavailable {rest : List Nat} {es : List (Entry K)} {error : String}
      (so_far : Attempts delays job rest es) :
      Attempts delays job rest (es ++ [.attempt job, .outcome job (.unavailable error)])

/-- Everything that happens to one job, up to its settlement. -/
inductive Settles (delays : List Nat) (job : Job K) : List (Entry K) → Prop where
  | applied {rest : List Nat} {es : List (Entry K)} (so_far : Attempts delays job rest es) :
      Settles delays job (es ++ [.attempt job, .outcome job .applied])
  | gaveUp {es : List (Entry K)} {o : Outcome} {error : String}
      (so_far : Attempts delays job [] es) (failure : o.failure = some error) :
      Settles delays job (es ++ [.attempt job, .outcome job o, .gaveUp job error])

inductive Serial (delays : List Nat) : List (Job K) → List (Entry K) → Prop where
  | nil : Serial delays [] []
  | snoc {jobs : List (Job K)} {job : Job K} {es bs : List (Entry K)}
      (before : Serial delays jobs es) (last : Settles delays job bs) :
      Serial delays (jobs ++ [job]) (es ++ bs)

/-! ## Counting what the log says of a job -/

def Entry.settles : Entry K → Bool
  | .outcome _ .applied | .gaveUp _ _ => true
  | _ => false

@[simp] theorem Entry.settles_attempt (job : Job K) : (Entry.attempt job).settles = false := rfl

@[simp] theorem Entry.settles_applied (job : Job K) :
    (Entry.outcome job .applied).settles = true := rfl

@[simp] theorem Entry.settles_gaveUp (job : Job K) (error : String) :
    (Entry.gaveUp job error).settles = true := rfl

theorem Entry.settles_of_failure {job : Job K} {o : Outcome} {error : String}
    (failure : o.failure = some error) : (Entry.outcome job o).settles = false := by
  cases o <;> first | rfl | cases failure

def Entry.fails : Entry K → Bool
  | .outcome _ o => o.failure.isSome
  | _ => false

section Count

variable [DecidableEq K]

def settlements (log : List (Entry K)) (job : Job K) : Nat :=
  log.countP fun e => e.settles && e.job = job

/-- How many attempts on `job` failed. An unavailable attempt is not one of them. -/
def failures (log : List (Entry K)) (job : Job K) : Nat :=
  log.countP fun e => e.fails && e.job = job

@[simp] theorem settlements_nil (job : Job K) : settlements [] job = 0 := rfl

@[simp] theorem settlements_cons (e : Entry K) (log : List (Entry K)) (job : Job K) :
    settlements (e :: log) job =
      settlements log job + if e.settles ∧ e.job = job then 1 else 0 := by
  by_cases h : e.job = job <;> cases s : e.settles <;> simp [settlements, s, h]

@[simp] theorem settlements_append (as bs : List (Entry K)) (job : Job K) :
    settlements (as ++ bs) job = settlements as job + settlements bs job :=
  List.countP_append

@[simp] theorem failures_append (as bs : List (Entry K)) (job : Job K) :
    failures (as ++ bs) job = failures as job + failures bs job :=
  List.countP_append

theorem settlements_filter (c : Config) (log : List (Entry K)) (job : Job K) :
    settlements (log.filter fun e => c.owner e.job = c.owner job) job = settlements log job := by
  rw [settlements, List.countP_filter]
  apply List.countP_congr
  intro e _
  simp only [Bool.and_eq_true, decide_eq_true_eq, and_iff_left_iff_imp]
  rintro ⟨-, same⟩
  rw [same]

theorem failures_filter (c : Config) (log : List (Entry K)) (job : Job K) :
    failures (log.filter fun e => c.owner e.job = c.owner job) job = failures log job := by
  rw [failures, List.countP_filter]
  apply List.countP_congr
  intro e _
  simp only [Bool.and_eq_true, decide_eq_true_eq, and_iff_left_iff_imp]
  rintro ⟨-, same⟩
  rw [same]

theorem failures_eq_zero {log : List (Entry K)} {job : Job K}
    (other : ∀ e ∈ log, e.job ≠ job) : failures log job = 0 := by
  rw [failures, List.countP_eq_zero]
  intro e he
  simp [other e he]

end Count

namespace Attempts

variable {delays rest : List Nat} {job : Job K} {es : List (Entry K)}

theorem job_eq (h : Attempts delays job rest es) : ∀ e ∈ es, e.job = job := by
  induction h with
  | start => simp
  | failed _ _ ih | unavailable _ ih =>
    intro e he
    simp only [List.mem_append, List.mem_cons, List.not_mem_nil, or_false] at he
    rcases he with old | rfl | rfl
    · exact ih e old
    · rfl
    · rfl

theorem not_settles (h : Attempts delays job rest es) : ∀ e ∈ es, e.settles = false := by
  induction h with
  | start => simp
  | failed _ failure ih =>
    intro e he
    simp only [List.mem_append, List.mem_cons, List.not_mem_nil, or_false] at he
    rcases he with old | rfl | rfl
    · exact ih e old
    · rfl
    · exact Entry.settles_of_failure failure
  | unavailable _ ih =>
    intro e he
    simp only [List.mem_append, List.mem_cons, List.not_mem_nil, or_false] at he
    rcases he with old | rfl | rfl
    · exact ih e old
    · rfl
    · rfl

theorem failures_add [DecidableEq K] (h : Attempts delays job rest es) :
    failures es job + rest.length = delays.length := by
  induction h with
  | start => simp [failures]
  | failed _ failure ih =>
    simp [failures, Entry.fails, Entry.job, failure] at ih ⊢
    omega
  | unavailable _ ih =>
    simpa [failures, Entry.fails, Entry.job, Outcome.failure] using ih

theorem settlements_eq_zero [DecidableEq K] (h : Attempts delays job rest es) (other : Job K) :
    settlements es other = 0 := by
  rw [settlements, List.countP_eq_zero]
  intro e he
  simp [h.not_settles e he]

end Attempts

namespace Settles

variable {delays : List Nat} {job : Job K} {es : List (Entry K)}

theorem job_eq (h : Settles delays job es) : ∀ e ∈ es, e.job = job := by
  cases h with
  | applied so_far | gaveUp so_far =>
    have := so_far.job_eq
    grind [Entry.job]

theorem settlements_eq [DecidableEq K] (h : Settles delays job es) (other : Job K) :
    settlements es other = [job].count other := by
  cases h with
  | applied so_far =>
    simp [so_far.settlements_eq_zero, List.count_singleton]
  | gaveUp so_far failure =>
    simp [so_far.settlements_eq_zero, List.count_singleton, Entry.settles_of_failure failure]

theorem failures_of_gaveUp [DecidableEq K] {error : String} (h : Settles delays job es)
    (given : .gaveUp job error ∈ es) : failures es job = delays.length + 1 := by
  cases h with
  | applied so_far =>
    have := so_far.not_settles (.gaveUp job error)
    simp_all [Entry.settles]
  | gaveUp so_far failure =>
    have used := so_far.failures_add
    simp [failures, Entry.fails, Entry.job, failure] at used ⊢
    omega

end Settles

namespace Serial

variable {delays : List Nat} {jobs : List (Job K)} {es : List (Entry K)}

theorem job_mem (h : Serial delays jobs es) : ∀ e ∈ es, e.job ∈ jobs := by
  induction h with
  | nil => simp
  | snoc _ last ih =>
    have := last.job_eq
    grind

theorem settlements_eq [DecidableEq K] (h : Serial delays jobs es) (job : Job K) :
    settlements es job = jobs.count job := by
  induction h with
  | nil => rfl
  | snoc _ last ih => rw [settlements_append, ih, last.settlements_eq, List.count_append]

theorem failures_of_gaveUp [DecidableEq K] {job : Job K} {error : String}
    (h : Serial delays jobs es)
    (once : jobs.Nodup) (given : .gaveUp job error ∈ es) : failures es job = delays.length + 1 := by
  induction h with
  | nil => simp at given
  | @snoc jobs last es bs before block ih =>
    rw [failures_append]
    obtain ⟨once, -, fresh⟩ := List.nodup_append.mp once
    rcases List.mem_append.mp given with old | new
    · have served : job ∈ jobs := before.job_mem _ old
      have apart : ∀ e ∈ bs, e.job ≠ job := fun e he => by
        rw [block.job_eq e he]
        exact (fresh job served last (by simp)).symm
      rw [ih once old, failures_eq_zero apart]
    · obtain rfl : job = last := block.job_eq _ new
      have apart : ∀ e ∈ es, e.job ≠ job := fun e he =>
        fresh _ (before.job_mem e he) job (by simp)
      rw [failures_eq_zero apart, block.failures_of_gaveUp new, Nat.zero_add]

theorem pairwise (h : Serial delays jobs es)
    (order : jobs.Pairwise fun a b => a.ticket < b.ticket) :
    es.Pairwise fun a b => a.job.ticket ≤ b.job.ticket := by
  induction h with
  | nil => exact .nil
  | @snoc jobs job es bs before block ih =>
    obtain ⟨order, -, later⟩ := List.pairwise_append.mp order
    have same := block.job_eq
    refine List.pairwise_append.mpr ⟨ih order, ?_, fun a ha b hb => ?_⟩
    · exact List.pairwise_of_forall_mem_list fun a ha b hb => by rw [same a ha, same b hb]
    · rw [same b hb]
      exact (later _ (before.job_mem a ha) job (by simp)).le

end Serial

/-! ## Attempts that do not overlap -/

/-- Which job is being applied after an entry: an attempt may begin only when none is,
and only that job's outcome ends it. -/
def Entry.follow [DecidableEq K] : Option (Job K) → Entry K → Option (Option (Job K))
  | none, .attempt job => some (some job)
  | none, .gaveUp _ _ => some none
  | some job, .outcome job' _ => if job' = job then some none else none
  | _, _ => none

def NoOverlap [DecidableEq K] (log : List (Entry K)) : Prop :=
  (log.foldlM Entry.follow none).isSome

section Overlap

variable [DecidableEq K] {delays rest : List Nat} {job : Job K} {jobs : List (Job K)}
  {es : List (Entry K)}

@[simp] theorem follow_attempt : Entry.follow none (.attempt job) = some (some job) := rfl

@[simp] theorem follow_outcome (o : Outcome) :
    Entry.follow (some job) (.outcome job o) = some none := by simp [Entry.follow]

@[simp] theorem follow_gaveUp (error : String) :
    Entry.follow none (.gaveUp job error) = some none := rfl

theorem Attempts.follow (h : Attempts delays job rest es) :
    es.foldlM Entry.follow none = some none := by
  induction h with
  | start => rfl
  | failed _ _ ih | unavailable _ ih => simp [List.foldlM_append, ih]

theorem Serial.follow (h : Serial delays jobs es) : es.foldlM Entry.follow none = some none := by
  induction h with
  | nil => rfl
  | snoc _ last ih =>
    cases last with
    | applied so_far | gaveUp so_far => simp [List.foldlM_append, ih, so_far.follow]

theorem foldlM_follow_filter (keep : Job K → Bool) (log : List (Entry K))
    {cur last : Option (Job K)}
    (h : log.foldlM Entry.follow cur = some last) :
    (log.filter fun e => keep e.job).foldlM Entry.follow (cur.filter keep) =
      some (last.filter keep) := by
  induction log generalizing cur with
  | nil => simp_all
  | cons e log ih =>
    rw [List.foldlM_cons, Option.bind_eq_bind, Option.bind_eq_some_iff] at h
    obtain ⟨next, one, more⟩ := h
    have tail := ih more
    rw [List.filter_cons]
    split
    case isTrue kept =>
      rw [List.foldlM_cons]
      cases e <;> cases cur <;> grind [Entry.follow, Entry.job]
    case isFalse dropped =>
      cases e <;> cases cur <;> grind [Entry.follow, Entry.job]

theorem NoOverlap.filter {log : List (Entry K)} (h : NoOverlap log) (keep : Job K → Bool) :
    NoOverlap (log.filter fun e => keep e.job) := by
  obtain ⟨last, h⟩ := Option.isSome_iff_exists.mp h
  have := foldlM_follow_filter keep log h
  simp_all [NoOverlap]

end Overlap

/-! ## One worker -/

def Phase.finished : Phase K → List (Job K)
  | .settled job => [job]
  | _ => []

def Phase.unsettled : Phase K → List (Job K)
  | .waiting job _ _ _ | .applying job _ _ | .givingUp job _ => [job]
  | .idle | .settled _ => []

def Phase.Tail (delays : List Nat) (tail : List (Entry K)) : Phase K → Prop
  | .idle | .settled _ => tail = []
  | .waiting job rest _ _ => Attempts delays job rest tail
  | .applying job rest _ => ∃ es, Attempts delays job rest es ∧ tail = es ++ [.attempt job]
  | .givingUp job error => ∃ es o, Attempts delays job [] es ∧ o.failure = some error ∧
      tail = es ++ [.attempt job, .outcome job o]

/-- The worker was sent `sent`, is through with `done`, and `log` is what it did. -/
structure Worker.Served (policy : RetryPolicy) (w : Worker K) (sent : List (Job K))
    (log : List (Entry K)) (done : List (Job K)) : Prop where
  sent_eq : sent = done ++ (w.phase.finished ++ w.phase.unsettled) ++ w.queue
  logged : ∃ es tail, log = es ++ tail ∧ Serial policy.delays (done ++ w.phase.finished) es ∧
    w.phase.Tail policy.delays tail

namespace Phase.Tail

variable {delays : List Nat} {tail : List (Entry K)} {phase : Phase K}

theorem job_mem (h : phase.Tail delays tail) : ∀ e ∈ tail, e.job ∈ phase.unsettled := by
  cases phase with
  | idle | settled => simp_all [Phase.Tail]
  | waiting =>
    intro e he
    simp [Phase.unsettled, Attempts.job_eq h e he]
  | applying =>
    obtain ⟨es, so_far, rfl⟩ := h
    have := so_far.job_eq
    grind [Phase.unsettled, Entry.job]
  | givingUp =>
    obtain ⟨es, o, so_far, -, rfl⟩ := h
    have := so_far.job_eq
    grind [Phase.unsettled, Entry.job]

theorem not_settles (h : phase.Tail delays tail) : ∀ e ∈ tail, e.settles = false := by
  cases phase with
  | idle | settled => simp_all [Phase.Tail]
  | waiting => exact Attempts.not_settles h
  | applying =>
    obtain ⟨es, so_far, rfl⟩ := h
    have := so_far.not_settles
    grind [Entry.settles_attempt]
  | givingUp =>
    obtain ⟨es, o, so_far, failure, rfl⟩ := h
    have := so_far.not_settles
    grind [Entry.settles_attempt, Entry.settles_of_failure]

theorem follow [DecidableEq K] (h : phase.Tail delays tail) :
    (tail.foldlM Entry.follow none).isSome := by
  cases phase with
  | idle | settled => simp_all [Phase.Tail]
  | waiting => simp [Attempts.follow h]
  | applying =>
    obtain ⟨es, so_far, rfl⟩ := h
    simp [List.foldlM_append, so_far.follow]
  | givingUp =>
    obtain ⟨es, o, so_far, -, rfl⟩ := h
    simp [List.foldlM_append, so_far.follow]

end Phase.Tail

theorem Phase.afterFailure_tail {delays rest : List Nat} {job : Job K} {o : Outcome}
    {error : String}
    {bs : List (Entry K)} (so_far : Attempts delays job rest bs) (failure : o.failure = some error)
    (retries : Nat) : (afterFailure job retries error rest).Tail delays
      (bs ++ [.attempt job, .outcome job o]) := by
  cases rest with
  | nil => exact ⟨bs, o, so_far, failure, rfl⟩
  | cons => exact .failed so_far failure

@[simp] theorem Phase.afterFailure_finished (job : Job K) (retries : Nat) (error : String)
    (rest : List Nat) : (afterFailure job retries error rest).finished = [] := by
  cases rest <;> rfl

/-- The reply of one call, seen from the log: the attempt it ends either settles the
job or leaves it with one delay less, or none less when it was unavailable. -/
theorem Phase.afterReply_logged {policy : RetryPolicy} {job : Job K} {rest : List Nat}
    {es bs : List (Entry K)} {done : List (Job K)} (serial : Serial policy.delays done es)
    (so_far : Attempts policy.delays job rest bs) (retries : Nat) (o : Outcome) :
    ∃ es' tail, es ++ (bs ++ [.attempt job, .outcome job o]) = es' ++ tail ∧
      Serial policy.delays (done ++ (afterReply policy job rest retries o).finished) es' ∧
      (afterReply policy job rest retries o).Tail policy.delays tail := by
  cases o with
  | applied => exact ⟨_, [], by simp, serial.snoc (.applied so_far), rfl⟩
  | unavailable error =>
    exact ⟨es, _, rfl, by simpa [afterReply, finished] using serial, .unavailable so_far⟩
  | failed error | panicked message =>
    exact ⟨es, _, rfl, by simpa [afterReply] using serial, afterFailure_tail so_far rfl retries⟩

theorem Phase.afterReply_hand (policy : RetryPolicy) (job : Job K) (rest : List Nat) (retries : Nat)
    (o : Outcome) : (afterReply policy job rest retries o).finished ++
      (afterReply policy job rest retries o).unsettled = [job] := by
  cases o with
  | applied | unavailable => rfl
  | failed | panicked => cases rest <;> rfl

namespace Worker

variable {policy : RetryPolicy} {w w' : Worker K} {sent : List (Job K)}
  {log entries : List (Entry K)}
  {done : List (Job K)} {task : Task} {ticket : Option Nat}

theorem Served.step (served : w.Served policy sent log done)
    (step : w.step policy task = some (w', entries, ticket)) :
    ∃ completed, ticket.toList = completed.map Job.ticket ∧ w'.closed = w.closed ∧
      w'.Served policy sent (log ++ entries) (done ++ completed) := by
  obtain ⟨sent_eq, es, tail, rfl, serial, rest⟩ := served
  obtain ⟨queue, phase, closed⟩ := w
  cases task with
  | recv =>
    cases phase <;> cases queue <;> cases step
    cases rest
    exact ⟨[], rfl, rfl, by simpa [Phase.finished, Phase.unsettled] using sent_eq,
      es, [], by simp, by simpa [Phase.finished] using serial, .start⟩
  | call =>
    cases phase <;> cases step
    exact ⟨[], rfl, rfl, by simpa [Phase.finished, Phase.unsettled] using sent_eq,
      es, _, by simp, by simpa [Phase.finished] using serial, tail, rest, rfl⟩
  | reply o =>
    cases phase <;> cases step
    obtain ⟨bs, so_far, rfl⟩ := rest
    refine ⟨[], rfl, rfl, ?_, ?_⟩
    · simp only [Phase.afterReply_hand, List.append_nil]
      exact sent_eq
    · simpa using Phase.afterReply_logged (by simpa [Phase.finished] using serial) so_far _ o
  | giveUp =>
    cases phase <;> cases step
    obtain ⟨bs, o, so_far, failure, rfl⟩ := rest
    refine ⟨[], rfl, rfl, by simpa [Phase.finished, Phase.unsettled] using sent_eq, ?_⟩
    refine ⟨_, [], ?_, .snoc (by simpa [Phase.finished] using serial) (.gaveUp so_far failure), rfl⟩
    simp
  | complete =>
    cases phase <;> cases step
    cases rest
    rename_i job
    exact ⟨[job], rfl, rfl, by simpa [Phase.finished, Phase.unsettled] using sent_eq,
      es, [], by simp, by simpa [Phase.finished] using serial, rfl⟩

theorem Served.job_mem (served : w.Served policy sent log done) : ∀ e ∈ log, e.job ∈ sent := by
  obtain ⟨sent_eq, es, tail, rfl, serial, rest⟩ := served
  have settled := serial.job_mem
  have hand := rest.job_mem
  grind

theorem Served.enqueue (served : w.Served policy sent log done) (job : Job K) :
    Served policy { w with queue := w.queue ++ [job] } (sent ++ [job]) log done := by
  refine ⟨?_, served.logged⟩
  simp [served.sent_eq]

end Worker

/-! ## The pool -/

/-- Every worker has served its own share of what was sent, and the watermark tracks
a history of the jobs dispatched and completed. -/
structure Pool.Inv (c : Config) (p : Pool K) (h : History) (sent : List (Job K))
    (done : Nat → List (Job K)) : Prop where
  tracks : p.watermark.Tracks h
  issued : h.issued = p.jobs.map (·.event.cursor)
  tickets : p.jobs.map Job.ticket = List.range p.jobs.length
  running : ∀ i, (p.workers i).closed = false
  jobs_eq : p.jobs = sent ++ p.reader.toList
  served : ∀ i, (p.workers i).Served c.retry (sent.filter fun job => c.owner job = i)
    (p.log.filter fun e => c.owner e.job = i) (done i)
  finished : ∀ t ∈ h.finished, ∃ i, ∃ job ∈ done i, job.ticket = t

namespace Pool

variable {c : Config} {p q : Pool K} {h : History} {sent : List (Job K)} {done : Nat → List (Job K)}

theorem inv_start : Inv c ({} : Pool K) {} [] fun _ => [] where
  tracks := Watermark.tracks_empty
  issued := rfl
  tickets := rfl
  running _ := rfl
  jobs_eq := rfl
  served _ := ⟨rfl, [], [], rfl, .nil, rfl⟩
  finished t ht := by cases ht

theorem Inv.read (inv : p.Inv c h sent done) {event : Event K} (step : p.read event = some q) :
    q.Inv c (h.begin event.cursor) sent done := by
  obtain ⟨idle, rfl⟩ := read_cases step
  have ticket := inv.tracks.begin_ticket event.cursor
  have all := inv.jobs_eq
  rw [idle] at all
  refine ⟨inv.tracks.begin _, ?_, ?_, inv.running, ?_, inv.served, inv.finished⟩
  · simp [History.begin, inv.issued]
  · simp [inv.tickets, ticket, inv.issued, List.range_succ]
  · simpa using all

theorem Inv.send (inv : p.Inv c h sent done) (step : p.send c = some q) :
    q.Inv c h p.jobs done := by
  obtain ⟨job, held, -, rfl⟩ := send_cases inv.running step
  have all : p.jobs = sent ++ [job] := by
    rw [inv.jobs_eq, held]
    rfl
  refine ⟨inv.tracks, inv.issued, inv.tickets, fun i => ?_, by simp, fun i => ?_, inv.finished⟩
  all_goals
    by_cases here : i = c.owner job
    · subst here
      have := (inv.served (c.owner job)).enqueue job
      have := inv.running (c.owner job)
      simp_all
    · have := inv.served i
      have := inv.running i
      simp_all [Ne.symm here]

theorem Inv.finished_update (inv : p.Inv c h sent done) {i : Nat} {completed : List (Job K)}
    {ticket : Option Nat} (tickets : ticket.toList = completed.map Job.ticket) :
    ∀ t ∈ (ticket.elim h h.complete).finished,
      ∃ j, ∃ job ∈ Function.update done i (done i ++ completed) j, job.ticket = t := by
  intro t ht
  have old : t ∈ h.finished → ∃ j, ∃ job ∈ Function.update done i (done i ++ completed) j,
      job.ticket = t := fun ht => by
    obtain ⟨j, job, mem, rfl⟩ := inv.finished t ht
    refine ⟨j, job, ?_, rfl⟩
    by_cases here : j = i
    · subst here
      simp [mem]
    · simpa [Function.update_of_ne here] using mem
  cases ticket with
  | none => exact old ht
  | some ticket =>
    rcases History.mem_complete_finished ht with before | rfl
    · exact old before
    · have : t ∈ completed.map Job.ticket := by simp [← tickets]
      obtain ⟨job, mem, rfl⟩ := List.mem_map.mp this
      exact ⟨i, job, by simp [mem], rfl⟩

theorem Inv.work (inv : p.Inv c h sent done) {i : Nat} {task : Task}
    (step : p.work c i task = some q) : ∃ h done, q.Inv c h sent done := by
  obtain ⟨-, w, entries, ticket, one, rfl⟩ := work_cases step
  obtain ⟨completed, tickets, running, served⟩ := (inv.served i).step one
  have mine : ∀ e ∈ entries, c.owner e.job = i := fun e he => by
    have := served.job_mem e (by simp [he])
    simpa using (List.mem_filter.mp this).2
  refine ⟨ticket.elim h h.complete, Function.update done i (done i ++ completed),
    ?_, ?_, inv.tickets, fun j => ?_, inv.jobs_eq, fun j => ?_, inv.finished_update tickets⟩
  · cases ticket with
    | none => exact inv.tracks
    | some ticket => exact inv.tracks.complete ticket
  · cases ticket <;> simp [inv.issued]
  · by_cases here : j = i
    · subst here
      simpa [running] using inv.running j
    · simpa [Function.update_of_ne here] using inv.running j
  · by_cases here : j = i
    · subst here
      have all : entries.filter (fun e => c.owner e.job = j) = entries := by
        simpa [List.filter_eq_self] using mine
      simpa [all] using served
    · have none : entries.filter (fun e => c.owner e.job = j) = [] := by
        simp only [List.filter_eq_nil_iff, decide_eq_true_eq]
        exact fun e he other => here (other.symm.trans (mine e he))
      simpa [none, Function.update_of_ne here] using inv.served j

theorem Inv.step (inv : p.Inv c h sent done) {action : Action K} (step : p.step c action = some q) :
    ∃ h sent done, q.Inv c h sent done := by
  cases action with
  | read event => exact ⟨_, _, _, inv.read step⟩
  | send => exact ⟨_, _, _, inv.send step⟩
  | work i task =>
    obtain ⟨h, done, next⟩ := inv.work step
    exact ⟨h, sent, done, next⟩

theorem inv_run {actions : List (Action K)} (run : (pool K c).run actions = some p) :
    ∃ h sent done, p.Inv c h sent done :=
  Machine.induct (P := fun _ p => ∃ h sent done, p.Inv c h sent done) ⟨_, _, _, inv_start⟩
    (fun _ _ _ _ ⟨_, _, _, inv⟩ step => inv.step step) run

/-! ## What the invariant says of a log -/

theorem Inv.pairwise (inv : p.Inv c h sent done) :
    p.jobs.Pairwise fun a b => a.ticket < b.ticket := by
  rw [← List.pairwise_map (R := (· < ·)), inv.tickets]
  exact List.pairwise_lt_range

theorem Inv.nodup (inv : p.Inv c h sent done) : p.jobs.Nodup :=
  inv.pairwise.imp fun lt same => absurd (congrArg Job.ticket same) lt.ne

theorem Inv.getElem?_ticket (inv : p.Inv c h sent done) {k : Nat} {job : Job K}
    (at_k : p.jobs[k]? = some job) : job.ticket = k := by
  have ticket : (p.jobs.map Job.ticket)[k]? = some job.ticket := by simp [at_k]
  rw [inv.tickets] at ticket
  simpa using (List.getElem?_eq_some_iff.mp ticket).2.symm

theorem Inv.pairwise_share (inv : p.Inv c h sent done) (i : Nat) :
    (sent.filter fun job => c.owner job = i).Pairwise fun a b => a.ticket < b.ticket := by
  have all := inv.pairwise
  rw [inv.jobs_eq, List.pairwise_append] at all
  exact all.1.filter _

theorem Inv.share_inOrder [DecidableEq K] (inv : p.Inv c h sent done) (i : Nat) :
    let log := p.log.filter fun e => c.owner e.job = i
    log.Pairwise (fun a b => a.job.ticket ≤ b.job.ticket) ∧ NoOverlap log := by
  obtain ⟨sent_eq, es, tail, log_eq, serial, rest⟩ := inv.served i
  have order := inv.pairwise_share i
  rw [sent_eq, ← List.append_assoc, List.append_assoc, List.pairwise_append] at order
  obtain ⟨settled, hand, between⟩ := order
  simp only [log_eq]
  constructor
  · refine List.pairwise_append.mpr ⟨serial.pairwise settled, ?_, fun a ha b hb => ?_⟩
    · refine List.pairwise_of_forall_mem_list fun a ha b hb => ?_
      have ha := rest.job_mem a ha
      have hb := rest.job_mem b hb
      cases phase : (p.workers i).phase <;> simp_all [Phase.unsettled]
    · exact (between _ (serial.job_mem a ha) _ (by simp [rest.job_mem b hb])).le
  · simp [NoOverlap, List.foldlM_append, serial.follow, rest.follow]

end Pool

def Pool.Pending (c : Config) (p : Pool K) (job : Job K) : Prop :=
  p.reader = some job ∨ job ∈ (p.workers (c.owner job)).queue ∨
    job ∈ (p.workers (c.owner job)).phase.unsettled

namespace Pool

variable {c : Config} {p q : Pool K} {h : History} {sent : List (Job K)} {done : Nat → List (Job K)}
variable [DecidableEq K]

theorem Inv.settlements_eq (inv : p.Inv c h sent done) (job : Job K) :
    settlements p.log job =
      (done (c.owner job) ++ (p.workers (c.owner job)).phase.finished).count job := by
  obtain ⟨-, es, tail, log_eq, serial, rest⟩ := inv.served (c.owner job)
  have none : settlements tail job = 0 := by
    rw [settlements, List.countP_eq_zero]
    intro e he
    simp [rest.not_settles e he]
  rw [← settlements_filter c, log_eq, settlements_append, serial.settlements_eq, none, Nat.add_zero]

theorem Inv.settlements_add (inv : p.Inv c h sent done) {job : Job K} (mem : job ∈ p.jobs) :
    settlements p.log job + ((p.workers (c.owner job)).phase.unsettled.count job +
      (p.workers (c.owner job)).queue.count job + p.reader.toList.count job) = 1 := by
  have once : p.jobs.count job = 1 := List.count_eq_one_of_mem inv.nodup mem
  have share : (sent.filter fun j => c.owner j = c.owner job).count job = sent.count job :=
    List.count_filter (by simp)
  rw [inv.jobs_eq, List.count_append, ← share, (inv.served (c.owner job)).sent_eq] at once
  rw [inv.settlements_eq]
  simp only [List.count_append] at once ⊢
  omega

theorem Inv.settlements_pending (inv : p.Inv c h sent done) {job : Job K} (mem : job ∈ p.jobs) :
    (settlements p.log job = 0 ↔ p.Pending c job) ∧ settlements p.log job ≤ 1 := by
  have total := inv.settlements_add mem
  have reader : 0 < p.reader.toList.count job ↔ p.reader = some job := by
    simp [List.count_pos_iff]
  have queue := List.count_pos_iff (a := job) (l := (p.workers (c.owner job)).queue)
  have hand := List.count_pos_iff (a := job) (l := (p.workers (c.owner job)).phase.unsettled)
  rw [Pending, ← reader, ← queue, ← hand]
  omega

theorem Inv.failures_of_gaveUp (inv : p.Inv c h sent done) {job : Job K} {error : String}
    (given : .gaveUp job error ∈ p.log) : failures p.log job = c.retry.delays.length + 1 := by
  obtain ⟨sent_eq, es, tail, log_eq, serial, rest⟩ := inv.served (c.owner job)
  have once : (sent.filter fun j => c.owner j = c.owner job).Nodup :=
    (inv.pairwise_share _).imp fun lt same => absurd (congrArg Job.ticket same) lt.ne
  rw [sent_eq, ← List.append_assoc, List.append_assoc, List.nodup_append] at once
  obtain ⟨once, -, apart⟩ := once
  have mine : .gaveUp job error ∈ p.log.filter fun e => c.owner e.job = c.owner job := by
    simpa using given
  rw [log_eq, List.mem_append] at mine
  rcases mine with settled | hand
  · have other : ∀ e ∈ tail, e.job ≠ job := fun e he same =>
      apart _ (serial.job_mem _ settled) _ (by simp [rest.job_mem e he]) same.symm
    rw [← failures_filter c, log_eq, failures_append, failures_eq_zero other,
      serial.failures_of_gaveUp once settled]
  · exact absurd (rest.not_settles _ hand) (by simp)

theorem Inv.settled_of_hasRetired (inv : p.Inv c h sent done) {k : Nat} {job : Job K}
    (at_k : p.jobs[k]? = some job) (retired : p.watermark.hasRetired k) :
    settlements p.log job = 1 := by
  obtain ⟨i, other, mem, ticket⟩ :=
    inv.finished k ((inv.tracks.hasRetired_iff k).mp retired k (Nat.le_refl k))
  have share : other ∈ sent.filter fun j => c.owner j = i := by
    simp [(inv.served i).sent_eq, mem]
  obtain ⟨wasSent, owner⟩ := List.mem_filter.mp share
  have dispatched : other ∈ p.jobs := by simp [inv.jobs_eq, wasSent]
  obtain ⟨n, at_n⟩ := List.getElem?_of_mem dispatched
  obtain rfl : n = k := (inv.getElem?_ticket at_n).symm.trans ticket
  obtain rfl : other = job := Option.some.inj (at_n.symm.trans at_k)
  obtain rfl : c.owner other = i := by simpa using owner
  have some_time : 0 < settlements p.log other := by
    rw [inv.settlements_eq, List.count_pos_iff]
    simp [mem]
  have := (inv.settlements_pending dispatched).2
  omega

theorem Inv.settled_of_applied (inv : p.Inv c h sent done) {point : CursorPoint}
    (applied : p.watermark.applied = some point) :
    ∃ (last : Nat) (job : Job K), p.jobs[last]? = some job ∧ job.event.cursor = point ∧
      ∀ k ≤ last, ∃ job, p.jobs[k]? = some job ∧ settlements p.log job = 1 := by
  have front_le := inv.tracks.front_le
  rw [inv.issued, List.length_map] at front_le
  rw [inv.tracks.applied, inv.issued, List.getLast?_take] at applied
  split at applied
  · cases applied
  · have dispatched : p.watermark.front - 1 < p.jobs.length := by omega
    refine ⟨p.watermark.front - 1, p.jobs[p.watermark.front - 1], by simp, ?_, fun k hk => ?_⟩
    · simpa [dispatched] using applied
    · have at_k : p.jobs[k]? = some p.jobs[k] := by simp
      refine ⟨p.jobs[k], at_k, inv.settled_of_hasRetired at_k ?_⟩
      simp only [Watermark.hasRetired, decide_eq_true_eq]
      omega

end Pool

/-! ## Progress -/

/-- The tasks left on the job in hand if no reply is `unavailable`. -/
def Phase.tasksLeft : Phase K → Nat
  | .idle => 0
  | .waiting _ delays _ _ => 2 * delays.length + 4
  | .applying _ delays _ => 2 * delays.length + 3
  | .givingUp _ _ => 2
  | .settled _ => 1

def RetryPolicy.tasksPerJob (policy : RetryPolicy) : Nat := 2 * policy.delays.length + 5

def Worker.tasksLeft (policy : RetryPolicy) (w : Worker K) : Nat :=
  policy.tasksPerJob * w.queue.length + w.phase.tasksLeft

def Task.isUnavailable : Task → Bool
  | .reply (.unavailable _) => true
  | _ => false

theorem Phase.afterFailure_tasksLeft (job : Job K) (retries : Nat) (error : String)
    (rest : List Nat) :
    (afterFailure job retries error rest).tasksLeft + 1 ≤ 2 * rest.length + 3 := by
  cases rest <;> simp [afterFailure, tasksLeft]
  omega

theorem Worker.tasksLeft_step {policy : RetryPolicy} {w w' : Worker K} {task : Task}
    {entries : List (Entry K)} {ticket : Option Nat}
    (step : w.step policy task = some (w', entries, ticket)) :
    w'.tasksLeft policy + 1 ≤ w.tasksLeft policy + 2 * task.isUnavailable.toNat := by
  obtain ⟨queue, phase, closed⟩ := w
  cases task with
  | recv =>
    cases phase <;> cases queue <;> cases step
    simp only [tasksLeft, Phase.tasksLeft, RetryPolicy.tasksPerJob, List.length_cons]
    grind
  | call | giveUp | complete =>
    cases phase <;> cases step
    simp only [tasksLeft, Phase.tasksLeft, Task.isUnavailable]
    omega
  | reply o =>
    cases phase <;> cases step
    cases o with
    | applied | unavailable =>
      simp [tasksLeft, Phase.tasksLeft, Phase.afterReply, Task.isUnavailable]
      try omega
    | failed error | panicked message =>
      have left := @Phase.afterFailure_tasksLeft K
      grind [tasksLeft, Phase.tasksLeft, Phase.afterReply, Task.isUnavailable]

theorem Worker.exists_step (policy : RetryPolicy) (w : Worker K)
    (busy : w.queue ≠ [] ∨ w.phase.unsettled ≠ []) : ∃ task, (w.step policy task).isSome := by
  obtain ⟨queue, phase, closed⟩ := w
  cases phase with
  | idle =>
    cases queue with
    | nil => simp [Phase.unsettled] at busy
    | cons => exact ⟨.recv, rfl⟩
  | waiting => exact ⟨.call, rfl⟩
  | applying => exact ⟨.reply .applied, rfl⟩
  | givingUp => exact ⟨.giveUp, rfl⟩
  | settled => exact ⟨.complete, rfl⟩

def Action.isTaskOf (i : Nat) : Action K → Bool
  | .work j _ => j = i
  | _ => false

def Action.isUnavailableOf (i : Nat) : Action K → Bool
  | .work j task => j = i && task.isUnavailable
  | _ => false

def tasks (i : Nat) (actions : List (Action K)) : Nat := actions.countP (Action.isTaskOf i)

/-- How many of worker `i`'s calls came back unavailable. -/
def unavailables (i : Nat) (actions : List (Action K)) : Nat :=
  actions.countP (Action.isUnavailableOf i)

/-- The tasks worker `i` may still have to run for the jobs dispatched so far. -/
def Pool.tasksLeft (c : Config) (p : Pool K) (i : Nat) : Nat :=
  (p.workers i).tasksLeft c.retry +
    c.retry.tasksPerJob * (p.reader.toList.filter fun job => c.owner job = i).length

theorem Pool.tasksLeft_step {c : Config} {p q : Pool K} {action : Action K} (i : Nat)
    (running : ∀ i, (p.workers i).closed = false) (step : p.step c action = some q) :
    q.tasksLeft c i + (action.isTaskOf i).toNat +
        c.retry.tasksPerJob * (p.jobs.filter fun job => c.owner job = i).length ≤
      p.tasksLeft c i + 2 * (action.isUnavailableOf i).toNat +
        c.retry.tasksPerJob * (q.jobs.filter fun job => c.owner job = i).length := by
  cases action with
  | read event =>
    obtain ⟨idle, rfl⟩ := read_cases step
    simp only [tasksLeft, idle, List.filter_append, List.length_append, Option.toList_some,
      Option.toList_none, List.filter_nil, List.length_nil, Action.isTaskOf, Action.isUnavailableOf]
    grind
  | send =>
    obtain ⟨job, held, -, rfl⟩ := send_cases running step
    by_cases here : c.owner job = i
    · subst here
      simp [tasksLeft, Worker.tasksLeft, held, Action.isTaskOf, Action.isUnavailableOf]
      grind
    · simp [tasksLeft, held, here, Ne.symm here, Action.isTaskOf, Action.isUnavailableOf]
  | work j task =>
    obtain ⟨-, w, entries, ticket, one, rfl⟩ := work_cases step
    by_cases here : j = i
    · subst here
      have := Worker.tasksLeft_step one
      simp [tasksLeft, Action.isTaskOf, Action.isUnavailableOf]
      omega
    · simp [tasksLeft, here, Ne.symm here, Action.isTaskOf, Action.isUnavailableOf]

theorem tasks_le {c : Config} {p : Pool K} {actions : List (Action K)}
    (run : (pool K c).run actions = some p) (i : Nat) :
    tasks i actions ≤ c.retry.tasksPerJob * (p.jobs.filter fun job => c.owner job = i).length +
      2 * unavailables i actions := by
  suffices (∃ h sent done, p.Inv c h sent done) ∧ tasks i actions + p.tasksLeft c i ≤
      c.retry.tasksPerJob * (p.jobs.filter fun job => c.owner job = i).length +
        2 * unavailables i actions by omega
  refine Machine.induct (P := fun actions p => (∃ h sent done, p.Inv c h sent done) ∧
    tasks i actions + p.tasksLeft c i ≤
      c.retry.tasksPerJob * (p.jobs.filter fun job => c.owner job = i).length +
        2 * unavailables i actions) ⟨⟨_, _, _, Pool.inv_start⟩, Nat.le_refl 0⟩ ?_ run
  rintro actions p action q ⟨⟨h, sent, done, inv⟩, bound⟩ step
  refine ⟨inv.step step, ?_⟩
  have one := Pool.tasksLeft_step i inv.running step
  have toNat (b : Bool) : (if b = true then 1 else 0) = b.toNat := by cases b <;> rfl
  simp only [tasks, unavailables, List.countP_append, List.countP_singleton, toNat] at bound ⊢
  omega

theorem Pool.Inv.exists_step {c : Config} {p : Pool K} {h : History} {sent : List (Job K)}
    {done : Nat → List (Job K)} (inv : p.Inv c h sent done) {job : Job K}
    (pending : p.Pending c job) :
    (p.send c).isSome ∨ ∃ task, (p.work c (c.owner job) task).isSome := by
  have worker (busy : (p.workers (c.owner job)).queue ≠ [] ∨
      (p.workers (c.owner job)).phase.unsettled ≠ []) :
      ∃ task, (p.work c (c.owner job) task).isSome := by
    obtain ⟨task, ok⟩ := Worker.exists_step c.retry _ busy
    exact ⟨task, by simpa [Pool.work, c.owner_lt job] using ok⟩
  rcases pending with held | queued | hand
  · by_cases room : (p.workers (c.owner job)).queue.length < max c.capacity 1
    · exact .inl (by simp [Pool.send, held, room, inv.running])
    · have some_room : 0 < max c.capacity 1 := Nat.le_max_right c.capacity 1
      refine .inr (worker (.inl fun empty => room ?_))
      rw [empty, List.length_nil]
      exact some_room
  · exact .inr (worker (.inl (List.ne_nil_of_mem queued)))
  · exact .inr (worker (.inr (List.ne_nil_of_mem hand)))

def entriesOf (did : String) (log : List (Entry K)) : List (Entry K) :=
  log.filter fun e => e.job.event.did = did

theorem Pool.Inv.entriesOf_inOrder [DecidableEq K] {c : Config} {p : Pool K} {h : History}
    {sent : List (Job K)} {done : Nat → List (Job K)} (inv : p.Inv c h sent done) (did : String) :
    (entriesOf did p.log).Pairwise (fun a b => a.job.ticket ≤ b.job.ticket) ∧
      NoOverlap (entriesOf did p.log) := by
  -- All of a DID's events have one owner, whose log is in order.
  have share : entriesOf did p.log = (p.log.filter fun e =>
      c.owner e.job = workerFor c.hash did c.count).filter fun e => e.job.event.did = did := by
    rw [entriesOf, List.filter_filter]
    apply List.filter_congr
    intro e _
    simp only [Config.owner]
    grind
  obtain ⟨order, apart⟩ := inv.share_inOrder (workerFor c.hash did c.count)
  rw [share]
  exact ⟨order.filter _, apart.filter fun job => job.event.did = did⟩

/-- For every schedule of the reader and the workers, every DID hash and every sequence
of outcomes. Tickets number the jobs in dispatch order. One DID's events are attempted
in that order and never overlap. A dispatched event is settled (applied or given up)
exactly once, once it is no longer pending, and a pending one can always be moved on,
in a number of tasks bounded by the jobs and the unavailable replies. An event is given
up only after one failed attempt more than there are delays. Every event up to the
applied point is settled. -/
theorem pool_run [DecidableEq K] (c : Config) (actions : List (Action K)) (p : Pool K)
    (run : (pool K c).run actions = some p) :
    p.jobs.map Job.ticket = List.range p.jobs.length ∧
    (∀ did, (entriesOf did p.log).Pairwise (fun a b => a.job.ticket ≤ b.job.ticket) ∧
      NoOverlap (entriesOf did p.log)) ∧
    (∀ job ∈ p.jobs, (settlements p.log job = 0 ↔ p.Pending c job) ∧ settlements p.log job ≤ 1) ∧
    (∀ job, p.Pending c job →
      (p.send c).isSome ∨ ∃ task, (p.work c (c.owner job) task).isSome) ∧
    (∀ i, tasks i actions ≤
      c.retry.tasksPerJob * (p.jobs.filter fun job => c.owner job = i).length +
        2 * unavailables i actions) ∧
    (∀ job error, .gaveUp job error ∈ p.log →
      failures p.log job = c.retry.delays.length + 1) ∧
    (∀ (k : Nat) job, p.jobs[k]? = some job → p.watermark.hasRetired k →
      settlements p.log job = 1) ∧
    (∀ point, p.watermark.applied = some point → ∃ (last : Nat) (job : Job K),
      p.jobs[last]? = some job ∧ job.event.cursor = point ∧
        ∀ k ≤ last, ∃ job, p.jobs[k]? = some job ∧ settlements p.log job = 1) := by
  obtain ⟨h, sent, done, inv⟩ := Pool.inv_run run
  exact ⟨inv.tickets, inv.entriesOf_inOrder, fun job mem => inv.settlements_pending mem,
    fun job pending => inv.exists_step pending, tasks_le run,
    fun job error given => inv.failures_of_gaveUp given,
    fun k job at_k retired => inv.settled_of_hasRetired at_k retired,
    fun point applied => inv.settled_of_applied applied⟩

def givenUpActions : List (Action Unit) :=
  [.read ⟨"did:plc:a", .v1 7, ()⟩, .send, .work 0 .recv,
    .work 0 .call, .work 0 (.reply (.unavailable "down")),
    .work 0 .call, .work 0 (.reply (.failed "bad")),
    .work 0 .call, .work 0 (.reply (.panicked "boom")), .work 0 .giveUp, .work 0 .complete]

theorem pool_run_givenUp : ∃ p,
    (pool Unit ⟨1, 1, ⟨[5], 60⟩, fun _ => 0⟩).run givenUpActions = some p ∧
    p.watermark.applied = some (.v1 7) ∧ failures p.log ⟨0, "did:plc:a", .v1 7, ()⟩ = 2 := by
  have run : ∃ p, (pool Unit ⟨1, 1, ⟨[5], 60⟩, fun _ => 0⟩).run givenUpActions = some p ∧
      p.watermark.applied = some (.v1 7) ∧
      .gaveUp ⟨0, "did:plc:a", .v1 7, ()⟩ "panicked: boom" ∈ p.log :=
    ⟨_, rfl, rfl, by simp [pool, Watermark.begin]⟩
  obtain ⟨p, run, applied, given⟩ := run
  obtain ⟨-, -, -, -, -, failed, -⟩ := pool_run _ _ p run
  exact ⟨p, run, applied, failed _ _ given⟩

end HappyView.Consumer
