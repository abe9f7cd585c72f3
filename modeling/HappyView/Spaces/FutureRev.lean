import HappyView.Spaces.Writers

/-!
# Revisions from the future

A repo's row only moves to a later revision, so a revision far in the future would keep every
honest one out. `record` refuses a revision whose time is more than five minutes ahead. The time
is decoded from the lowest 64 bits of the 65 that thirteen characters hold, while rows compare as
texts. So the guard keeps the order exactly for texts whose first character is one that 64 bits
can begin with (`futureRev_guard`); any other text passes as if it were old and sorts after every
TID there is.
-/

namespace HappyView.Spaces.Writers

open HappyView.Foundation

def lastTidAllowed (now : Nat) : String := Tid.tidFromParts (now + maxRevClockSkewMicros) 0x3ff

def Canonical (rev : String) : Prop := rev.toList.head?.all (· ≤ 'j') = true

instance (rev : String) : Decidable (Canonical rev) := inferInstanceAs (Decidable (_ = true))

/-! ## One revision -/

section Revision

variable {rev : String} {now us clockId : Nat}

theorem checkRev_ok (accepted : checkRev rev now = .ok ()) :
    ∃ n < 2 ^ 65, rev = Tid.encodeBase32Sort n ∧
      n % 2 ^ 64 / 1024 ≤ now + maxRevClockSkewMicros := by
  obtain ⟨micros, decoded, inTime⟩ := bind_eq_ok.mp accepted
  rw [require_eq_ok, Tid.tidToUnixMicroseconds] at decoded
  obtain ⟨val, number, rfl⟩ := Option.map_eq_some_iff.mp decoded
  obtain ⟨n, bound, rfl, rfl⟩ := Tid.decodeBase32Sort_eq_some number
  refine ⟨n, bound, rfl, ?_⟩
  simpa [Nat.shiftRight_eq_div_pow] using inTime

theorem tidFromParts_of_lt (fits : us < 2 ^ 54) :
    Tid.tidFromParts us clockId = Tid.encodeBase32Sort (us * 1024 + clockId % 1024) := by
  rw [Tid.tidFromParts_eq, Nat.mod_eq_of_lt fits]
  rfl

theorem le_lastTidAllowed_iff (accepted : checkRev rev now = .ok ())
    (fits : now + maxRevClockSkewMicros < 2 ^ 54) : rev ≤ lastTidAllowed now ↔ Canonical rev := by
  obtain ⟨n, bound, rfl, inTime⟩ := checkRev_ok accepted
  rw [Canonical, Tid.head_encodeBase32Sort bound, ← not_lt, lastTidAllowed,
    tidFromParts_of_lt fits, Tid.encodeBase32Sort_lt (by omega) bound]
  omega

theorem Canonical.lt_minted (canonical : Canonical rev) (accepted : checkRev rev now = .ok ())
    (later : now + maxRevClockSkewMicros < us) (fits : us < 2 ^ 54) :
    rev < Tid.tidFromParts us clockId := by
  obtain ⟨n, bound, rfl, inTime⟩ := checkRev_ok accepted
  rw [Canonical, Tid.head_encodeBase32Sort bound] at canonical
  rw [tidFromParts_of_lt fits, Tid.encodeBase32Sort_lt bound (by omega)]
  omega

end Revision

/-! ## The revisions of a run -/

def Phase.report? : Phase → Option Report
  | .idle => none
  | .checked report | .locked report | .current report | .sequenced report _ => some report
  | .stamped a => some a.toReport

/-- Every revision in the tables and on its way there has the property. -/
structure State.Revs (p : String → Prop) (s : State) : Prop where
  rows : ∀ row ∈ s.rows, p row.rev
  phases : ∀ i c, s.sessions.lookup i = some c → ∀ report ∈ c.phase.report?, p report.rev
  pending : ∀ i c, s.sessions.lookup i = some c → ∀ a ∈ c.pending, p a.rev

theorem revs_applied {p : String → Prop} {rows : List Writer} {new : List Advance}
    (old : ∀ row ∈ rows, p row.rev) (added : ∀ a ∈ new, p a.rev) :
    ∀ row ∈ applied rows new, p row.rev := by
  induction new generalizing rows with
  | nil => exact old
  | cons a new ih =>
    obtain ⟨first, rest⟩ := List.forall_mem_cons.mp added
    refine ih (fun row mem => ?_) rest
    rcases List.mem_append.mp mem with kept | written
    · exact old row (List.mem_of_mem_filter kept)
    · rw [List.mem_singleton.mp written]
      exact first

namespace State

variable {p : String → Prop} {backend : DatabaseBackend} {s t : State} {i : Nat} {c d : Session}

theorem Revs.put (revs : s.Revs p) (phase : ∀ report ∈ c.phase.report?, p report.rev)
    (pending : ∀ a ∈ c.pending, p a.rev) : (s.put i c).Revs p := by
  have own : ∀ j d, (s.put i c).sessions.lookup j = some d →
      (j = i ∧ d = c) ∨ s.sessions.lookup j = some d := by
    intro j d held
    by_cases same : j = i
    · subst same
      left
      exact ⟨rfl, by simpa [State.put] using held.symm⟩
    · right
      simpa [State.put, AList.lookup_insert_ne same] using held
  refine ⟨revs.rows, fun j d held => ?_, fun j d held => ?_⟩
  · obtain ⟨rfl, rfl⟩ | other := own j d held
    · exact phase
    · exact revs.phases j d other
  · obtain ⟨rfl, rfl⟩ | other := own j d held
    · exact pending
    · exact revs.pending j d other

theorem Revs.publish {new : List Advance} (revs : s.Revs p) (added : ∀ a ∈ new, p a.rev) :
    (s.publish new).Revs p :=
  { revs with rows := revs_applied revs.rows added }

theorem Revs.disconnect (revs : s.Revs p) : (s.disconnect i).Revs p := by
  have other : ∀ j d, (s.disconnect i).sessions.lookup j = some d →
      s.sessions.lookup j = some d := by
    intro j d held
    have ne : j ≠ i := by
      rintro rfl
      simp [State.disconnect] at held
    simpa [State.disconnect, AList.lookup_erase_ne ne] using held
  exact ⟨revs.rows, fun j d held => revs.phases j d (other j d held),
    fun j d held => revs.pending j d (other j d held)⟩

theorem Revs.work {task : Task} (revs : s.Revs p) (held : s.sessions.lookup i = some c)
    (accepted : ∀ report now, task = .record report now → checkRev report.rev now = .ok () →
      p report.rev) (h : s.work backend i c task = some t) : t.Revs p := by
  have phase := revs.phases i c held
  have pending := revs.pending i c held
  cases task with
  | record report now =>
    simp only [State.work] at h
    split at h
    · rename_i passed
      cases h
      exact revs.put (by simpa [Phase.report?] using accepted report now rfl passed) pending
    · cases h
      exact revs
    · cases h
  | lock =>
    simp only [State.work] at h
    split at h
    · rename_i report checked
      obtain ⟨-, ⟨⟩⟩ := Option.ite_none_right_eq_some.mp h
      have moved : (s.put i { c with phase := .locked report }).Revs p :=
        revs.put (by simpa [checked, Phase.report?] using phase) pending
      exact ⟨moved.rows, moved.phases, moved.pending⟩
    · cases h
  | readHeld =>
    simp only [State.work] at h
    split at h
    · rename_i report locked
      cases h
      refine revs.put ?_ pending
      split
      · simp [Phase.report?]
      · simpa [locked, Phase.report?] using phase
    · cases h
  | readMax =>
    simp only [State.work] at h
    split at h
    · rename_i report current
      cases h
      exact revs.put (by simpa [current, Phase.report?] using phase) pending
    · cases h
  | stamp us clockId =>
    simp only [State.work] at h
    split at h
    · rename_i report prev sequenced
      cases h
      exact revs.put (by simpa [sequenced, Phase.report?] using phase) pending
    · cases h
  | upsert =>
    simp only [State.work] at h
    split at h
    · rename_i a stamped
      have stampedRev : p a.rev := by simpa [stamped, Phase.report?] using phase
      split at h
      · cases h
        refine revs.put (by simp [Phase.report?]) fun b mem => ?_
        rcases List.mem_append.mp mem with written | last
        · exact pending b written
        · rw [List.mem_singleton.mp last]
          exact stampedRev
      · obtain ⟨-, ⟨⟩⟩ := Option.ite_none_right_eq_some.mp h
        exact (revs.publish (by simpa using stampedRev)).put (by simp [Phase.report?]) pending
    · cases h
  | commit =>
    simp only [State.work] at h
    obtain ⟨-, ⟨⟩⟩ := Option.ite_none_right_eq_some.mp h
    exact (revs.publish pending).disconnect

theorem Revs.step {a : Action} (revs : s.Revs p)
    (accepted : ∀ i report now, a = .work i (.record report now) →
      checkRev report.rev now = .ok () → p report.rev)
    (h : s.step backend a = some t) : t.Revs p := by
  cases a with
  | connect i transactional =>
    obtain ⟨-, ⟨⟩⟩ := Option.ite_none_right_eq_some.mp h
    exact revs.put (by simp [Phase.report?]) (by simp)
  | work i task =>
    obtain ⟨c, held, h⟩ := Option.bind_eq_some_iff.mp h
    refine revs.work held (fun report now same => ?_) h
    exact accepted i report now (by rw [same])
  | close i =>
    cases h
    exact revs.disconnect

end State

theorem revs_run {p : String → Prop} {backend : DatabaseBackend} {actions : List Action} {s : State}
    (run : (writers backend).run actions = some s)
    (accepted : ∀ i report now, .work i (.record report now) ∈ actions →
      checkRev report.rev now = .ok () → p report.rev) : s.Revs p := by
  refine Machine.induct (M := writers backend)
    (P := fun actions s => (∀ i report now, .work i (.record report now) ∈ actions →
      checkRev report.rev now = .ok () → p report.rev) → s.Revs p) ?_ ?_ run accepted
  · intro _
    exact ⟨by simp [writers], by simp [writers], by simp [writers]⟩
  · intro actions s a t ih step accepted
    have before : s.Revs p :=
      ih fun i report now mem => accepted i report now (List.mem_append_left _ mem)
    refine before.step (fun i report now same => ?_) step
    exact accepted i report now (by simp [same])

theorem isStale_eq_false {rows : List Writer} {report : Report}
    (past : ∀ row ∈ rows, row.rev < report.rev) : isStale rows report = false := by
  unfold isStale
  cases found : rows.find? (·.repoDid = report.repoDid) with
  | none => rfl
  | some row => simpa using past row (List.mem_of_find?_eq_some found)

/-! ## The guard -/

/-- The reports that the guard let pass were made by `latest`, with canonical revisions. -/
def CanonicalUntil (latest : Nat) (actions : List Action) : Prop :=
  ∀ i report now, .work i (.record report now) ∈ actions → checkRev report.rev now = .ok () →
    now ≤ latest ∧ Canonical report.rev

/-- An accepted revision is within the skew exactly if it is canonical. In a run that accepted
canonical ones only, a revision minted once the skew has passed is newer than every row that any
connection sees. -/
theorem futureRev_guard (backend : DatabaseBackend) :
    (∀ rows report now tid result, record rows report now tid = .ok result →
      now + maxRevClockSkewMicros < 2 ^ 54 →
        (report.rev ≤ lastTidAllowed now ↔ Canonical report.rev)) ∧
    ∀ actions s, (writers backend).run actions = some s →
      ∀ latest, CanonicalUntil latest actions →
        ∀ us clockId, latest + maxRevClockSkewMicros < us → us < 2 ^ 54 →
          ∀ i c, s.sessions.lookup i = some c → ∀ repo hash,
            isStale (c.view s.rows) ⟨repo, Tid.tidFromParts us clockId, hash⟩ = false := by
  constructor
  · intro rows report now tid result accepted fits
    unfold record at accepted
    obtain ⟨_, passed, -⟩ := bind_eq_ok.mp accepted
    exact le_lastTidAllowed_iff passed fits
  · intro actions s run latest canonical us clockId later fits i c held repo hash
    have revs : s.Revs (· < Tid.tidFromParts us clockId) := by
      refine revs_run run fun j report now mem passed => ?_
      obtain ⟨early, canonical⟩ := canonical j report now mem passed
      exact canonical.lt_minted passed (by omega) fits
    have past : ∀ row ∈ c.view s.rows, row.rev < Tid.tidFromParts us clockId :=
      revs_applied (p := (· < Tid.tidFromParts us clockId)) revs.rows (revs.pending i c held)
    exact isStale_eq_false past

def september : Nat := 1757775845000000

def honestReport : Report := ⟨"did:plc:alice", Tid.tidFromParts september 7, []⟩

def honestRun : List Action :=
  .connect 0 false :: (recordTasks honestReport september september 7).map (.work 0)

theorem futureRev_guard_honestRun : honestReport.rev ≤ lastTidAllowed september ∧ ∃ s c,
    (writers .sqlite).run honestRun = some s ∧ s.sessions.lookup 0 = some c ∧
    s.rows ≠ [] ∧ isStale (c.view s.rows)
      ⟨"did:plc:alice", Tid.tidFromParts (september + 600000000) 3, []⟩ = false := by
  constructor
  · refine ((futureRev_guard .sqlite).1 [] honestReport september "" _ rfl ?_).mpr ?_
    all_goals decide +kernel
  have reached : ((writers .sqlite).run honestRun).any (fun s =>
      s.sessions.lookup 0 = some { transactional := false } ∧ s.rows ≠ []) = true := by
    decide +kernel
  obtain ⟨s, run, held⟩ := (Option.any_eq_true _ _).mp reached
  obtain ⟨held, written⟩ := of_decide_eq_true held
  refine ⟨s, _, run, held, written, ?_⟩
  refine (futureRev_guard .sqlite).2 honestRun s run september ?_ _ 3 ?_ ?_ 0 _ held _ _
  · intro i report now mem _
    simp only [honestRun, recordTasks, List.map_cons, List.map_nil, List.mem_cons,
      List.not_mem_nil, Action.work.injEq, Task.record.injEq, reduceCtorEq, and_false, or_false,
      false_or] at mem
    obtain ⟨-, rfl, rfl⟩ := mem
    exact ⟨le_rfl, by decide +kernel⟩
  · decide
  · decide

/-- A text that decodes to the year 1970 is accepted, sorts after every TID, and keeps a revision
minted an hour later out. -/
theorem futureRev_accepted : ∃ rows spaceRev,
    record [] ⟨"did:plc:alice", "k222222222222", []⟩ september (Tid.tidFromParts september 7) =
      .ok (.advanced spaceRev none, rows) ∧
    lastTidAllowed september < "k222222222222" ∧
    record rows ⟨"did:plc:alice", Tid.tidFromParts (september + 3600000000) 3, []⟩
      (september + 3600000000) (Tid.tidFromParts (september + 3600000000) 9) =
        .ok (.stale, rows) := by
  refine ⟨_, _, rfl, ?_, ?_⟩
  all_goals decide +kernel

end HappyView.Spaces.Writers
