import HappyView.Backfill.BlockAccounting

/-!
# What a saved cursor has behind it

The cursor of a sweep is saved after an entry, and only up to the entry's end, below which no
later entry has a row. A stop or a crash leaves the saved cursor where it was, or moves it to a
place that is behind it already. So what the cursor has passed is accounted for in every state
of the database that the runs of a job lead to.
-/

namespace HappyView.Backfill

open HappyView.Foundation HappyView.Ingest

variable {decoders : Decoders} {archive : Archive} {jobId : String} {tracked : List String}
  {hasKey : Bool} {origin : Sweep} {w w' : World} {db db' : ReplayDb}

/-! ## Rows behind a cursor -/

def Sweep.selects (sweep : Sweep) (row : Row) : Bool := (sweep.filter 0).selects row

structure Sweep.Continues (sweep start : Sweep) : Prop where
  kind : sweep.kind = start.kind
  collections : sweep.collections = start.collections
  dids : sweep.dids = start.dids
  afterSeq : sweep.afterSeq = start.afterSeq

theorem Sweep.Continues.refl (sweep : Sweep) : sweep.Continues sweep := ⟨rfl, rfl, rfl, rfl⟩

theorem Sweep.Continues.trans {a b c : Sweep} (h : a.Continues b) (k : b.Continues c) :
    a.Continues c where
  kind := h.kind.trans k.kind
  collections := h.collections.trans k.collections
  dids := h.dids.trans k.dids
  afterSeq := h.afterSeq.trans k.afterSeq

theorem Sweep.Continues.selects {sweep start : Sweep} (h : sweep.Continues start) (row : Row) :
    sweep.selects row = start.selects row := by
  have kinds : sweep.rowKinds = start.rowKinds := by
    unfold Sweep.rowKinds
    rw [h.kind]
  have same : sweep.filter 0 = { start.filter 0 with afterSeq := sweep.cursorSeq } := by
    simp only [Sweep.filter, kinds, h.collections, h.dids]
  unfold Sweep.selects
  rw [same]
  rfl

theorem Sweep.keep_iff {sweep : Sweep} {tip : Nat} {row : Row} :
    (sweep.filter tip).keep row = true ↔
      sweep.selects row = true ∧ sweep.cursorSeq < row.seq ∧ row.seq ≤ tip := by
  have selects : (sweep.filter tip).selects row = sweep.selects row := rfl
  have after : (sweep.filter tip).afterSeq = sweep.cursorSeq := rfl
  have through : (sweep.filter tip).throughSeq = tip := rfl
  unfold RowFilter.keep
  grind

/-- Every row that the saved cursor of the sweep has passed is accounted for, and a sweep that is
done has passed its tip. -/
structure Safe (decoders : Decoders) (archive : Archive) (origin : Sweep) (db : ReplayDb) :
    Prop where
  passed : ∀ name i row, Lies archive name i row → db.sweep.selects row = true →
    db.sweep.afterSeq < row.seq → row.seq ≤ db.sweep.cursorSeq → Accounted decoders db name i row
  continues : db.sweep.Continues origin
  complete : db.sweep.done = true → ∃ tip, db.sweep.tipSeq = some tip ∧ tip ≤ db.sweep.cursorSeq

theorem Safe.keeps (safe : Safe decoders archive origin db) (h : Keeps db db') :
    Safe decoders archive origin db' := by
  constructor
  · intro name i row lies selected after passed
    rw [h.sweep] at selected after passed
    exact (safe.passed name i row lies selected after passed).mono h.settled h.failures
  · rw [h.sweep]
    exact safe.continues
  · rw [h.sweep]
    exact safe.complete

/-! ## Pages -/

/-- The seqs that a cursor may move to by the page: up to where it is planned through, and to
the end of each of its entries. -/
def PlanPage.Reaches (page : PlanPage) (seq : Nat) : Prop :=
  seq ≤ page.plannedThroughSeq ∨ ∃ e ∈ page.segments, seq ≤ e.maxSeq

/-- The entries of the page hold whatever the filter keeps within its reach, in ascending
order: what a later entry holds lies above the end of an earlier one. -/
structure PlanPage.Covers (page : PlanPage) (archive : Archive) (filter : RowFilter) : Prop where
  covers : ∀ name i row, Lies archive name i row → filter.keep row = true →
    page.Reaches row.seq → ∃ e ∈ page.segments, e.Includes name i
  ascending : page.segments.Pairwise fun e later => ∀ name i row, Lies archive name i row →
    filter.keep row = true → later.Includes name i → e.maxSeq < row.seq

/-- Whatever place of the sweep it is asked from, the archive plans a page that covers. -/
def Reply.Plans (reply : Reply) (archive : Archive) (origin : Sweep) : Prop :=
  ∀ (sweep : Sweep) (page : PlanPage), sweep.Continues origin →
    reply.plan sweep.request = .ok page →
    page.Covers archive (sweep.filter (sweep.tipSeq.getD page.sealedTipSeq))

theorem Safe.save (safe : Safe decoders archive origin db) {sweep : Sweep}
    (continues : sweep.Continues db.sweep)
    (further : ∀ name i row, Lies archive name i row → db.sweep.selects row = true →
      db.sweep.cursorSeq < row.seq → row.seq ≤ sweep.cursorSeq → Accounted decoders db name i row)
    (complete : sweep.done = true → ∃ tip, sweep.tipSeq = some tip ∧ tip ≤ sweep.cursorSeq) :
    Safe decoders archive origin { db with sweep := sweep } := by
  refine ⟨fun name i row lies selected after passed => ?_, continues.trans safe.continues, complete⟩
  dsimp only at selected after passed
  rw [continues.selects] at selected
  rw [continues.afterSeq] at after
  have accounted : Accounted decoders db name i row := by
    obtain ahead | behind := Nat.lt_or_ge db.sweep.cursorSeq row.seq
    · exact further name i row lies selected ahead passed
    · exact safe.passed name i row lies selected after behind
  exact accounted.mono (fun _ h => h) fun _ h => h

theorem save_safe {sweep : Sweep} (before : Safe decoders archive origin w.db)
    (after : Safe decoders archive origin { w.db with sweep := sweep }) :
    wp (save sweep)
      (fun _ w' => w'.db = { w.db with sweep := sweep } ∧ ∀ reply ∈ w'.script, reply ∈ w.script)
      (fun w' => Safe decoders archive origin w'.db) w := by
  unfold save
  rw [wp_bind, wp_ask]
  cases asked : w.script with
  | nil => exact before
  | cons reply rest =>
    have fewer : ∀ r ∈ rest, r ∈ reply :: rest := fun r mem => List.mem_cons_of_mem _ mem
    -- written; failed and applied; failed
    cases written : reply.written with
    | true => simpa [written, wp_bind] using fewer
    | false =>
      cases applied : reply.applied with
      | true => simpa [written, applied, wp_bind] using after
      | false => simpa [written, applied, wp_bind] using before

/-- Where a sweep stands that has the entries `rest` of a page before it: what the page reaches
is accounted for or lies in one of them. -/
structure OnPage (decoders : Decoders) (archive : Archive) (origin : Sweep) (page : PlanPage)
    (tip : Nat) (start : Sweep) (rest : List PlanEntry) (sweep : Sweep) (w : World) : Prop where
  saved : w.db.sweep = sweep
  safe : Safe decoders archive origin w.db
  plans : ∀ reply ∈ w.script, reply.Plans archive origin
  continues : sweep.Continues start
  onward : start.cursorSeq ≤ sweep.cursorSeq
  pinned : sweep.tipSeq = some tip
  left : ∀ name i row, Lies archive name i row → (start.filter tip).keep row = true →
    page.Reaches row.seq → Accounted decoders w.db name i row ∨ ∃ e ∈ rest, e.Includes name i

section Page

variable {page : PlanPage} {tip : Nat} {start sweep : Sweep} {rest : List PlanEntry}

theorem OnPage.advances (h : OnPage decoders archive origin page tip start rest sweep w)
    (moved : Advances w w') : OnPage decoders archive origin page tip start rest sweep w' where
  saved := moved.sweep.trans h.saved
  safe := h.safe.keeps moved.toKeeps
  plans := fun reply mem => h.plans reply (moved.script reply mem)
  continues := h.continues
  onward := h.onward
  pinned := h.pinned
  left := fun name i row lies kept reached =>
    (h.left name i row lies kept reached).imp_left (·.mono moved.settled moved.failures)

theorem OnPage.steps {α : Type} {x : Replay α} {post : α → World → Prop}
    (h : OnPage decoders archive origin page tip start rest sweep w)
    (moves : Steps Advances Stops x post w) :
    wp x
      (fun value w' => OnPage decoders archive origin page tip start rest sweep w' ∧ post value w')
      (fun w' => Safe decoders archive origin w'.db) w :=
  wp_mono moves (fun _ _ ⟨moved, reached⟩ => ⟨h.advances moved, reached⟩) fun _ => h.safe.keeps

theorem OnPage.save (h : OnPage decoders archive origin page tip start rest sweep w) (next : Sweep)
    (continues : next.Continues sweep) (onward : sweep.cursorSeq ≤ next.cursorSeq)
    (pinned : next.tipSeq = some tip)
    (further : ∀ name i row, Lies archive name i row → (start.filter tip).keep row = true →
      sweep.cursorSeq < row.seq → row.seq ≤ next.cursorSeq → Accounted decoders w.db name i row)
    (within : sweep.cursorSeq < next.cursorSeq → next.cursorSeq ≤ tip)
    (complete : next.done = true → sweep.done = true ∨ tip ≤ next.cursorSeq) :
    wp (HappyView.Backfill.save next)
      (fun _ w' => OnPage decoders archive origin page tip start rest next w')
      (fun w' => Safe decoders archive origin w'.db) w := by
  have safe : Safe decoders archive origin { w.db with sweep := next } := by
    refine h.safe.save (h.saved ▸ continues) ?_ ?_
    · intro name i row lies selected ahead passed
      rw [h.saved] at selected ahead
      rw [h.continues.selects] at selected
      have beyond := h.onward
      refine further name i row lies (Sweep.keep_iff.mpr ⟨selected, ?_, ?_⟩) ahead passed <;> omega
    · intro done
      refine ⟨tip, pinned, ?_⟩
      obtain before | reached := complete done
      · obtain ⟨tip', same, passed⟩ := h.safe.complete (h.saved ▸ before)
        rw [h.saved] at same passed
        rw [h.pinned] at same
        cases same
        exact passed.trans onward
      · exact reached
  refine wp_mono (save_safe h.safe safe) ?_ fun _ stopped => stopped
  rintro - w' ⟨written, fewer⟩
  constructor
  · rw [written]
  · rw [written]
    exact safe
  · exact fun reply mem => h.plans reply (fewer reply mem)
  · exact continues.trans h.continues
  · exact h.onward.trans onward
  · exact pinned
  · intro name i row lies kept reached
    rw [written]
    exact (h.left name i row lies kept reached).imp_left (·.mono (fun _ m => m) fun _ m => m)

theorem checkStop_advances : Steps Advances Stops checkStop (fun _ _ => True) w := by
  refine steps_bind advances_chains ask_advances fun reply w' _ _ => ?_
  split
  · exact .refl w'.db
  · exact steps_pure advances_chains trivial

theorem countBytes_advances : Steps Advances Stops countBytes (fun _ _ => True) w := by
  refine steps_bind advances_chains ask_advances fun reply w' _ _ => ?_
  split
  · exact .refl w'.db
  · exact steps_pure advances_chains trivial

theorem OnPage.through {next : PlanEntry}
    (h : OnPage decoders archive origin page tip start (next :: rest) sweep w)
    (accounts : ∀ name i, next.Includes name i →
      BlockAccounted decoders archive (start.filter tip) w.db name i) :
    OnPage decoders archive origin page tip start rest sweep w :=
  { h with
    left := by
      intro name i row lies kept reached
      obtain accounted | ⟨e, mem, included⟩ := h.left name i row lies kept reached
      · exact .inl accounted
      obtain rfl | mem := List.mem_cons.mp mem
      · exact .inl (accounts name i included row lies kept)
      · exact .inr ⟨e, mem, included⟩ }

theorem entries_safe
    (ascending : rest.Pairwise fun e later => ∀ name i row, Lies archive name i row →
      (start.filter tip).keep row = true → later.Includes name i → e.maxSeq < row.seq)
    (within : ∀ e ∈ rest, e ∈ page.segments)
    (h : OnPage decoders archive origin page tip start rest sweep w) :
    wp (entries decoders archive jobId tracked (start.filter tip) tip rest sweep)
      (fun swept w' => OnPage decoders archive origin page tip start [] swept w')
      (fun w' => Safe decoders archive origin w'.db) w := by
  induction rest generalizing sweep w with
  | nil => exact h
  | cons next rest ih =>
    obtain ⟨below, ascending⟩ := List.pairwise_cons.mp ascending
    refine wp_bind.mpr (wp_mono (h.steps checkStop_advances) ?_ fun _ stopped => stopped)
    rintro - w₁ ⟨h₁, -⟩
    refine wp_bind.mpr (wp_mono (h₁.steps (entry_accounts (start.filter tip) next)) ?_
      fun _ stopped => stopped)
    rintro - w₂ ⟨h₂, accounts⟩
    have h₃ := h₂.through accounts
    have saved := h₃.save
      { sweep with cursorSeq := max sweep.cursorSeq (min next.maxSeq tip) } ⟨rfl, rfl, rfl, rfl⟩
      (Nat.le_max_left _ _) h.pinned ?_ (by dsimp only; omega) .inl
    · refine wp_bind.mpr (wp_mono saved ?_ fun _ stopped => stopped)
      intro _ w₄ h₄
      refine wp_bind.mpr (wp_mono (h₄.steps countBytes_advances) ?_ fun _ stopped => stopped)
      rintro - w₅ ⟨h₅, -⟩
      exact ih ascending (fun e mem => within e (List.mem_cons_of_mem _ mem)) h₅
    · intro name i row lies kept ahead passed
      have inside : row.seq ≤ next.maxSeq := by dsimp only at passed; omega
      obtain accounted | ⟨e, mem, included⟩ := h₃.left name i row lies kept
        (.inr ⟨next, within next List.mem_cons_self, inside⟩)
      · exact accounted
      · exact absurd (below e mem name i row lies kept included) (Nat.not_lt.mpr inside)

end Page

/-! ## Runs -/

structure BetweenPages (decoders : Decoders) (archive : Archive) (origin sweep : Sweep)
    (w : World) : Prop where
  saved : w.db.sweep = sweep
  safe : Safe decoders archive origin w.db
  plans : ∀ reply ∈ w.script, reply.Plans archive origin

theorem BetweenPages.advances {sweep : Sweep} (h : BetweenPages decoders archive origin sweep w)
    (moved : Advances w w') : BetweenPages decoders archive origin sweep w' where
  saved := moved.sweep.trans h.saved
  safe := h.safe.keeps moved.toKeeps
  plans := fun reply mem => h.plans reply (moved.script reply mem)

theorem plan_advances (hasKey : Bool) (sweep : Sweep) :
    Steps Advances Stops (plan hasKey sweep)
      (fun page _ => ∃ reply ∈ w.script, reply.plan sweep.request = .ok page) w := by
  refine steps_bind advances_chains ask_advances fun reply w' _ mem => ?_
  split
  next page answered => exact steps_pure advances_chains ⟨reply, mem, answered⟩
  all_goals exact .refl w'.db

theorem BetweenPages.start {sweep : Sweep} {page : PlanPage}
    (h : BetweenPages decoders archive origin sweep w)
    (covers : page.Covers archive (sweep.filter (sweep.tipSeq.getD page.sealedTipSeq))) :
    wp (save { sweep with tipSeq := some (sweep.tipSeq.getD page.sealedTipSeq) })
      (fun _ w' => OnPage decoders archive origin page (sweep.tipSeq.getD page.sealedTipSeq)
        { sweep with tipSeq := some (sweep.tipSeq.getD page.sealedTipSeq) } page.segments
        { sweep with tipSeq := some (sweep.tipSeq.getD page.sealedTipSeq) } w')
      (fun w' => Safe decoders archive origin w'.db) w := by
  have safe : Safe decoders archive origin { w.db with
      sweep := { sweep with tipSeq := some (sweep.tipSeq.getD page.sealedTipSeq) } } := by
    refine h.safe.save (h.saved ▸ ⟨rfl, rfl, rfl, rfl⟩) ?_ fun done => ?_
    · intro name i row _ _ ahead passed
      rw [h.saved] at ahead
      exact absurd passed (Nat.not_le.mpr ahead)
    · obtain ⟨tip, pinned, passed⟩ := h.safe.complete (h.saved ▸ done)
      rw [h.saved] at pinned passed
      exact ⟨tip, by simp [pinned], passed⟩
  refine wp_mono (save_safe h.safe safe) ?_ fun _ stopped => stopped
  rintro - w' ⟨written, fewer⟩
  constructor
  · rw [written]
  · rw [written]
    exact safe
  · exact fun reply mem => h.plans reply (fewer reply mem)
  · exact .refl _
  · exact le_rfl
  · rfl
  · exact fun name i row lies kept reached => .inr (covers.covers name i row lies kept reached)

theorem afterPage_advances (through pageStart tip stalled : Nat) :
    Steps Advances Stops (afterPage through pageStart tip stalled) (fun _ _ => True) w := by
  unfold afterPage
  split
  · split
    · exact .refl w.db
    · exact steps_pure advances_chains trivial
  · exact steps_pure advances_chains trivial

theorem OnPage.finish {page : PlanPage} {tip : Nat} {start swept : Sweep}
    (h : OnPage decoders archive origin page tip start [] swept w) :
    wp (HappyView.Backfill.save { swept with
        cursorSeq := max swept.cursorSeq (min page.plannedThroughSeq tip)
        done := swept.done || page.plannedThroughSeq ≥ tip })
      (fun _ w' => BetweenPages decoders archive origin { swept with
        cursorSeq := max swept.cursorSeq (min page.plannedThroughSeq tip)
        done := swept.done || page.plannedThroughSeq ≥ tip } w')
      (fun w' => Safe decoders archive origin w'.db) w := by
  refine wp_mono (h.save _ ⟨rfl, rfl, rfl, rfl⟩ (Nat.le_max_left _ _) h.pinned ?_ ?_ ?_) ?_
    fun _ stopped => stopped
  · intro name i row lies kept ahead passed
    dsimp only at passed
    obtain accounted | ⟨e, mem, -⟩ := h.left name i row lies kept (.inl (by omega))
    · exact accounted
    · cases mem
  · dsimp only
    omega
  · intro done
    obtain before | through := Bool.or_eq_true _ _ ▸ done
    · exact .inl before
    · have reached : tip ≤ page.plannedThroughSeq := of_decide_eq_true through
      dsimp only
      omega
  · intro _ w' h'
    exact ⟨h'.saved, h'.safe, h'.plans⟩

theorem sweepPages_safe (fuel stalled : Nat) {sweep : Sweep}
    (h : BetweenPages decoders archive origin sweep w) :
    wp (sweepPages decoders archive jobId tracked hasKey fuel stalled sweep)
      (fun _ w' => Safe decoders archive origin w'.db)
      (fun w' => Safe decoders archive origin w'.db) w := by
  induction fuel generalizing stalled sweep w with
  | zero => exact h.safe
  | succ fuel ih =>
    refine wp_bind.mpr (wp_mono checkStop_advances ?_ fun _ => h.safe.keeps)
    rintro - w₁ ⟨moved, -⟩
    have h₁ := h.advances moved
    refine wp_bind.mpr (wp_mono (plan_advances hasKey sweep) ?_ fun _ => h₁.safe.keeps)
    rintro page w₂ ⟨moved, reply, mem, answered⟩
    have covers := h₁.plans reply mem sweep page (h₁.saved ▸ h₁.safe.continues) answered
    refine wp_bind.mpr (wp_mono ((h₁.advances moved).start covers) ?_ fun _ stopped => stopped)
    intro _ w₃ h₃
    refine wp_bind.mpr (wp_mono (entries_safe covers.ascending (fun _ mem => mem) h₃) ?_
      fun _ stopped => stopped)
    intro swept w₄ h₄
    refine wp_bind.mpr (wp_mono (h₄.steps (afterPage_advances ..)) ?_ fun _ stopped => stopped)
    rintro stalled w₅ ⟨h₅, -⟩
    refine wp_bind.mpr (wp_mono h₅.finish ?_ fun _ stopped => stopped)
    intro _ w₆ h₆
    dsimp only
    split
    · exact h₆.safe
    · exact ih stalled h₆

theorem runJob_safe {script : List Reply} (safe : Safe decoders archive origin db)
    (plans : ∀ reply ∈ script, reply.Plans archive origin) :
    Safe decoders archive origin (runJob decoders archive jobId tracked hasKey db script) := by
  have flushed (w : World) (h : Safe decoders archive origin w.db) :
      Safe decoders archive origin ((flush jobId).run w).2.db :=
    wp_always (fun w' => Safe decoders archive origin w'.db)
      (wp_mono flush_progress (fun _ _ ⟨moved, _⟩ => h.keeps moved.toKeeps) fun _ => h.keeps)
  let start : World := { db := db, script := script }
  have swept : Safe decoders archive origin
      ((sweepPages decoders archive jobId tracked hasKey (script.length + 1) 0 db.sweep).run
        start).2.db :=
    wp_always (fun w' : World => Safe decoders archive origin w'.db)
      (sweepPages_safe (script.length + 1) 0 ⟨rfl, safe, plans⟩)
  unfold runJob
  by_cases done : db.sweep.done = true
  · simp only [done, if_true]
    exact flushed start safe
  · simp only [done]
    split
    · exact swept
    · exact flushed _ swept

theorem runJobs_safe {scripts : List (List Reply)} (safe : Safe decoders archive origin db)
    (plans : ∀ script ∈ scripts, ∀ reply ∈ script, reply.Plans archive origin) :
    Safe decoders archive origin (runJobs decoders archive jobId tracked hasKey db scripts) := by
  induction scripts generalizing db with
  | nil => exact safe
  | cons script rest ih =>
    exact ih (runJob_safe safe (plans script List.mem_cons_self))
      fun later mem => plans later (List.mem_cons_of_mem _ mem)

theorem safe_start {sweep : Sweep} (fresh : sweep.cursorSeq = sweep.afterSeq)
    (undone : sweep.done = false) : Safe decoders archive sweep { sweep := sweep } := by
  refine ⟨fun name i row _ _ after passed => ?_, .refl sweep, fun done => ?_⟩
  · dsimp only at after passed
    omega
  · rw [undone] at done
    cases done

def deletedRow : Row := ⟨5, 0, kindDelete, "app.note", "did:a", "one", "rev5", []⟩

def brokenRow : Row := ⟨6, 0, kindCreate, "app.note", "did:a", "two", "rev6", [255]⟩

def noteArchive : Archive := fun name => if name = "seg" then [[deletedRow, brokenRow]] else []

def strictDecoders : Decoders where
  record := fun _ => .error "unexpected break"
  cid := fun _ => none
  account := fun _ => .error "unexpected break"
  sync := fun _ => .error "unexpected break"

def noteSweep : Sweep :=
  { kind := .commits, collections := ["app.note"], dids := none, afterSeq := 0, cursorSeq := 0 }

def notePage : PlanPage :=
  { plannedThroughSeq := 6, sealedTipSeq := 6,
    segments := [{ name := "seg", maxSeq := 6, mode := .blocks, blocks := [(0, 0)] }] }

def answered : Reply := { plan := fun _ => .ok notePage }

theorem lies_noteArchive {name : String} {i : Nat} {row : Row} (h : Lies noteArchive name i row) :
    name = "seg" ∧ i = 0 := by
  obtain ⟨rows, found, -⟩ := h
  unfold noteArchive at found
  split at found
  · refine ⟨‹_›, ?_⟩
    obtain ⟨inside, -⟩ := List.getElem?_eq_some_iff.mp found
    simpa using inside
  · cases found

theorem answered_plans : answered.Plans noteArchive noteSweep := by
  rintro sweep page - ⟨⟩
  refine ⟨fun name i row lies _ _ => ?_, List.pairwise_singleton _ _⟩
  obtain ⟨rfl, rfl⟩ := lies_noteArchive lies
  exact ⟨_, List.mem_cons_self, rfl, .inr (by decide)⟩

def noteScripts : List (List Reply) := [List.replicate 4 answered, List.replicate 12 answered]

theorem noteScripts_plans : ∀ script ∈ noteScripts, ∀ reply ∈ script,
    reply.Plans noteArchive noteSweep := by
  intro script listed reply mem
  have same : reply = answered := by
    simp only [noteScripts, List.mem_cons, List.not_mem_nil, or_false] at listed
    obtain rfl | rfl := listed
    · exact List.eq_of_mem_replicate mem
    · exact List.eq_of_mem_replicate mem
  exact same ▸ answered_plans

end HappyView.Backfill
