import HappyView.Backfill.Replay

/-!
# What an entry of a plan leaves behind

While an entry is folded, a row that the filter keeps is settled by the pipeline, waits in the
fold's buffer, or lies in a block that is noted as failed. The flush and the recording at the end
of the entry turn the last two into what the database holds.
-/

namespace HappyView.Backfill

open HappyView.Foundation HappyView.Ingest
open HappyView.Consumer (Event EventKind Commit markerEvent)

variable {decoders : Decoders} {archive : Archive} {jobId : String} {tracked : List String}
  {w w' : World} {db db' : ReplayDb}

/-! ## Rows -/

def Lies (archive : Archive) (name : String) (i : Nat) (row : Row) : Prop :=
  ∃ rows, (archive name)[i]? = some rows ∧ row ∈ rows

def Undecodable (decoders : Decoders) (row : Row) : Prop :=
  ∃ error, rowToEvent decoders row = .error error

/-- The pipeline is through with the event, and its answer was no failure. -/
def ReplayDb.Took (db : ReplayDb) (event : Event EventKind) : Prop :=
  ∃ outcome, (event, outcome) ∈ db.settled ∧ outcome.isFailure = false

def RowSettled (decoders : Decoders) (db : ReplayDb) (row : Row) : Prop :=
  ∃ event, rowToEvent decoders row = .ok (some event) ∧ db.Took event

def BlockRecorded (db : ReplayDb) (name : String) (i : Nat) : Prop :=
  (name, some i) ∈ db.failures ∨ (name, none) ∈ db.failures

def Accounted (decoders : Decoders) (db : ReplayDb) (name : String) (i : Nat) (row : Row) : Prop :=
  RowSettled decoders db row ∨ Undecodable decoders row ∨ BlockRecorded db name i

/-! ## What a run adds to the database -/

structure Keeps (db db' : ReplayDb) : Prop where
  sweep : db'.sweep = db.sweep
  settled : ∀ x ∈ db.settled, x ∈ db'.settled
  failures : ∀ x ∈ db.failures, x ∈ db'.failures

theorem Keeps.refl (db : ReplayDb) : Keeps db db := ⟨rfl, fun _ h => h, fun _ h => h⟩

theorem Keeps.trans {db'' : ReplayDb} (h : Keeps db db') (k : Keeps db' db'') : Keeps db db'' where
  sweep := k.sweep.trans h.sweep
  settled := fun x mem => k.settled x (h.settled x mem)
  failures := fun x mem => k.failures x (h.failures x mem)

theorem ReplayDb.Took.mono {event : Event EventKind} (more : ∀ x ∈ db.settled, x ∈ db'.settled)
    (h : db.Took event) : db'.Took event := by
  obtain ⟨outcome, mem, fine⟩ := h
  exact ⟨outcome, more _ mem, fine⟩

theorem Accounted.mono {name : String} {i : Nat} {row : Row}
    (settled : ∀ x ∈ db.settled, x ∈ db'.settled) (failures : ∀ x ∈ db.failures, x ∈ db'.failures)
    (h : Accounted decoders db name i row) : Accounted decoders db' name i row := by
  obtain h | h | h | h := h
  · obtain ⟨event, read, took⟩ := h
    exact .inl ⟨event, read, took.mono settled⟩
  · exact .inr (.inl h)
  · exact .inr (.inr (.inl (failures _ h)))
  · exact .inr (.inr (.inr (failures _ h)))

/-! ## What a run carries in memory -/

/-- The fold has the event in its buffer, or the pipeline is through with it. -/
def Handled (w : World) (event : Event EventKind) : Prop :=
  event ∈ w.run.fold.pending ∨ w.db.Took event

structure Advances (w w' : World) : Prop extends Keeps w.db w'.db where
  script : ∀ reply ∈ w'.script, reply ∈ w.script

structure Progress (w w' : World) : Prop extends Advances w w' where
  pending : ∀ event ∈ w.run.fold.pending, Handled w' event
  noted : ∀ x ∈ w.run.entryFailures, x ∈ w'.run.entryFailures

theorem Advances.refl (w : World) : Advances w w := ⟨.refl w.db, fun _ h => h⟩

theorem Advances.trans {w'' : World} (h : Advances w w') (k : Advances w' w'') :
    Advances w w'' :=
  ⟨h.toKeeps.trans k.toKeeps, fun reply mem => h.script reply (k.script reply mem)⟩

theorem Progress.handled (h : Progress w w') {event : Event EventKind} (k : Handled w event) :
    Handled w' event := by
  obtain buffered | took := k
  · exact h.pending event buffered
  · exact .inr (took.mono h.settled)

def Stops (w w' : World) : Prop := Keeps w.db w'.db

theorem advances_chains : Chains Advances Stops where
  refl := .refl
  trans := fun _ _ _ h k => h.trans k
  stop := fun _ _ _ h k => h.toKeeps.trans k

theorem progress_chains : Chains Progress Stops where
  refl := fun w => ⟨.refl w, fun _ h => .inl h, fun _ h => h⟩
  trans := by
    intro w w' w'' h k
    exact ⟨h.toAdvances.trans k.toAdvances, fun event mem => k.handled (h.pending event mem),
      fun x mem => k.noted x (h.noted x mem)⟩
  stop := fun _ _ _ h k => h.toKeeps.trans k

theorem wp_ask {post : Reply → World → Prop} {halt : World → Prop} :
    wp ask post halt w ↔
      match w.script with
      | [] => halt w
      | reply :: rest => post reply { w with script := rest } := by
  unfold ask
  rw [wp_bind, wp_get]
  cases w.script <;> rfl

theorem steps_ask {moves : World → World → Prop}
    (asked : ∀ rest, (∀ reply ∈ rest, reply ∈ w.script) → moves w { w with script := rest }) :
    Steps moves Stops ask (fun reply _ => reply ∈ w.script) w := by
  refine wp_ask.mpr ?_
  cases h : w.script with
  | nil => exact .refl w.db
  | cons reply rest =>
    refine ⟨asked rest fun r mem => ?_, List.mem_cons_self⟩
    rw [h]
    exact List.mem_cons_of_mem _ mem

theorem ask_progress : Steps Progress Stops ask (fun reply _ => reply ∈ w.script) w :=
  steps_ask fun _ fewer => ⟨⟨.refl w.db, fewer⟩, fun _ h => .inl h, fun _ h => h⟩

theorem ask_advances : Steps Advances Stops ask (fun reply _ => reply ∈ w.script) w :=
  steps_ask fun _ fewer => ⟨.refl w.db, fewer⟩

/-! ## The fold -/

theorem settle_progress (settled : List (Event EventKind × IngestOutcome)) :
    Steps Progress Stops (settle settled) (fun _ w' => ∀ x ∈ settled, x ∈ w'.db.settled) w := by
  refine ⟨⟨⟨⟨rfl, ?_, fun _ h => h⟩, fun _ h => h⟩, fun _ h => .inl h, fun _ h => h⟩, ?_⟩
  · exact fun x mem => List.mem_append_left _ mem
  · exact fun x mem => List.mem_append_right _ mem

theorem ingest_progress (events : List SourceEvent) :
    Steps Progress Stops (ingest events) (fun _ _ => True) w := by
  have handed : Steps Progress Stops
      (modify fun w : World => { w with handed := w.handed ++ events } : Replay Unit)
      (fun _ _ => True) w :=
    ⟨⟨⟨.refl w.db, fun _ h => h⟩, fun _ h => .inl h, fun _ h => h⟩, trivial⟩
  exact steps_bind progress_chains handed fun _ _ _ _ =>
    steps_mono ask_progress fun _ _ _ _ => trivial

theorem flush_progress :
    Steps Progress Stops (flush jobId) (fun _ w' => w'.run.fold.pending = []) w := by
  unfold Steps flush
  rw [wp_bind, wp_get]
  dsimp only
  split
  next empty => exact ⟨progress_chains.refl w, List.isEmpty_iff.mp empty⟩
  rw [setPending, wp_bind, wp_modify, wp_bind, ingest, wp_bind, wp_modify, wp_ask]
  cases asked : w.script with
  | nil => exact .refl w.db
  | cons reply rest =>
    dsimp only
    split
    · exact .refl w.db
    split
    · exact .refl w.db
    next fine =>
    -- every buffered event has its outcome now
    refine ⟨⟨⟨⟨rfl, ?_, fun _ h => h⟩, ?_⟩, ?_, fun _ h => h⟩, rfl⟩
    · exact fun x mem => List.mem_append_left _ mem
    · intro r mem
      rw [asked]
      exact List.mem_cons_of_mem _ mem
    · intro event mem
      refine .inr ⟨_, List.mem_append_right _ (List.mem_map.mpr ⟨event, mem, rfl⟩), ?_⟩
      simp only [List.any_map, List.any_eq_true, not_exists, not_and] at fine
      simpa using fine event mem

theorem ingestOne_progress (event : Event EventKind) (source : SourceEvent)
    {refused : IngestOutcome → Bool} (message : Option String → String)
    (fails : ∀ outcome, refused outcome = false → outcome.isFailure = false) :
    Steps Progress Stops (ingestOne event source refused message)
      (fun _ w' => Handled w' event) w := by
  refine steps_bind progress_chains (ingest_progress _) fun reply w' _ _ => ?_
  split
  · exact .refl w'.db
  next taken =>
    refine steps_mono (settle_progress _) fun _ w'' _ settled =>
      .inr ⟨_, settled _ List.mem_cons_self, fails _ (by simpa using taken)⟩

theorem buffer_progress (event : Event EventKind) :
    Steps Progress Stops (setPending (w.run.fold.pending ++ [event]))
      (fun _ w' => Handled w' event) w := by
  refine ⟨⟨⟨.refl w.db, fun _ h => h⟩, ?_, fun _ h => h⟩, ?_⟩
  · exact fun buffered mem => .inl (List.mem_append_left _ mem)
  · exact .inl (List.mem_append_right _ (List.mem_singleton_self _))

theorem flushIf_progress {condition : Prop} [Decidable condition] {rest : Replay Unit}
    {post : Unit → World → Prop}
    (next : ∀ w', Progress w w' → Steps Progress Stops rest post w') :
    Steps Progress Stops (if condition then do flush jobId; rest else rest) post w := by
  split
  · exact steps_bind progress_chains flush_progress fun _ w' moved _ => next w' moved
  · exact next w (progress_chains.refl w)

def Foldable (event : Event EventKind) : Prop :=
  match event.kind with
  | .commit commit => commit.operation = "delete" ∨ commit.record.isSome = true
  | .account .. | .sync _ => True
  | .identity _ => False

theorem apply_progress {event : Event EventKind} (foldable : Foldable event) :
    Steps Progress Stops (apply jobId tracked event) (fun _ w' => Handled w' event) w := by
  unfold apply
  refine wp_bind.mpr (wp_get.mpr ?_)
  cases kind : event.kind with
  | commit commit =>
    rw [Foldable, kind] at foldable
    dsimp only at foldable ⊢
    split
    next => exact flushIf_progress fun w' _ => ingestOne_progress _ _ _ fun _ => id
    next notDelete =>
      obtain ⟨record, body⟩ := Option.isSome_iff_exists.mp (foldable.resolve_left notDelete)
      rw [body]
      refine steps_bind progress_chains (buffer_progress event) fun _ w' _ handled => ?_
      split
      · exact steps_mono flush_progress fun _ w'' further _ => further.handled handled
      · exact steps_pure progress_chains handled
  | account active status =>
    exact flushIf_progress fun w' _ => ingestOne_progress _ _ _ fun _ => by simp +contextual
  | sync rev =>
    exact flushIf_progress fun w' _ => ingestOne_progress _ _ _ fun _ => by simp +contextual
  | identity handle => simp [Foldable, kind] at foldable

/-! ## Rows and blocks -/

def RowHandled (decoders : Decoders) (w : World) (row : Row) : Prop :=
  Undecodable decoders row ∨ ∃ event, rowToEvent decoders row = .ok (some event) ∧ Handled w event

theorem RowHandled.progress {row : Row} (h : RowHandled decoders w row) (moved : Progress w w') :
    RowHandled decoders w' row := by
  obtain h | ⟨event, read, handled⟩ := h
  · exact .inl h
  · exact .inr ⟨event, read, moved.handled handled⟩

theorem foldable_of_selects (decoders : Decoders) {filter : RowFilter} {row : Row}
    (selected : filter.selects row = true) :
    Undecodable decoders row ∨
      ∃ event, rowToEvent decoders row = .ok (some event) ∧ Foldable event := by
  have replayed : isCommit row.kind = true ∨ isMarker row.kind = true := by
    unfold RowFilter.selects at selected
    cases kinds : filter.kinds <;> grind
  unfold Undecodable rowToEvent Row.eventKind
  by_cases delete : row.kind = kindDelete
  · rw [if_pos delete]
    exact .inr ⟨_, rfl, .inl rfl⟩
  rw [if_neg delete]
  by_cases commit : isCommit row.kind = true
  · rw [if_pos commit]
    cases decoders.record row.payload with
    | error e => exact .inl ⟨_, rfl⟩
    | ok record =>
      cases decoders.cid row.payload with
      | none => exact .inl ⟨_, rfl⟩
      | some c =>
        exact .inr ⟨⟨row.did, .v2 row.seq row.witnessedAt, row.commit
          (if row.kind = kindUpdate then "update" else "create") (some record) (some c)⟩,
          rfl, .inr rfl⟩
  · have marker := replayed.resolve_left commit
    rw [if_neg commit]
    by_cases account : row.kind = kindAccount
    · rw [if_pos account]
      cases decoders.account row.payload with
      | error e => exact .inl ⟨_, rfl⟩
      | ok marker => exact .inr ⟨_, rfl, trivial⟩
    · have sync : row.kind = kindSync := by simpa [isMarker, account] using marker
      rw [if_neg account, if_pos sync]
      cases decoders.sync row.payload with
      | error e => exact .inl ⟨_, rfl⟩
      | ok rev => exact .inr ⟨_, rfl, trivial⟩

theorem foldRow_progress (filter : RowFilter) (row : Row) :
    Steps Progress Stops (foldRow decoders jobId tracked filter row)
      (fun _ w' => filter.keep row = true → RowHandled decoders w' row) w := by
  unfold foldRow
  split
  next dropped => exact steps_pure progress_chains fun kept => by simp [kept] at dropped
  next kept =>
    have selected : filter.selects row = true := by
      unfold RowFilter.keep at kept
      grind
    obtain ⟨error, failed⟩ | ⟨event, read, foldable⟩ :=
      foldable_of_selects decoders selected
    · rw [failed]
      exact steps_pure progress_chains fun _ => .inl ⟨error, failed⟩
    · rw [read]
      exact steps_mono (apply_progress foldable) fun _ w' _ handled _ => .inr ⟨event, read, handled⟩

theorem foldRowList_progress (filter : RowFilter) (rows : List Row) :
    Steps Progress Stops (foldRowList decoders jobId tracked filter rows)
      (fun _ w' => ∀ row ∈ rows, filter.keep row = true → RowHandled decoders w' row) w := by
  induction rows generalizing w with
  | nil => exact steps_pure progress_chains (by simp)
  | cons row rest ih =>
    refine steps_bind progress_chains (foldRow_progress filter row) fun _ w' moved first => ?_
    refine steps_mono ih fun _ w'' further others => ?_
    intro other mem kept
    obtain rfl | mem := List.mem_cons.mp mem
    · exact (first kept).progress further
    · exact others other mem kept

theorem resetFailures_progress :
    Steps Progress Stops (modify fun w : World =>
      { w with run := { w.run with consecutiveFailures := 0 } } : Replay Unit)
      (fun _ _ => True) w :=
  ⟨⟨⟨.refl w.db, fun _ h => h⟩, fun _ h => .inl h, fun _ h => h⟩, trivial⟩

theorem foldRows_progress (filter : RowFilter) (rows : List Row) :
    Steps Progress Stops (foldRows decoders jobId tracked filter rows)
      (fun _ w' => ∀ row ∈ rows, filter.keep row = true → RowHandled decoders w' row) w := by
  exact steps_bind progress_chains resetFailures_progress fun _ w' _ _ =>
    foldRowList_progress filter rows

theorem blockFailed_progress (segment : String) (block : Option Nat) (message : String)
    (outage : Bool) :
    Steps Progress Stops (blockFailed segment block message outage)
      (fun _ w' => (segment, block, message) ∈ w'.run.entryFailures) w := by
  have noted (n : Nat) : Progress w { w with run := { w.run with
      entryFailures := w.run.entryFailures ++ [(segment, block, message)]
      consecutiveFailures := n } } :=
    ⟨⟨.refl w.db, fun _ h => h⟩, fun _ h => .inl h, fun x mem => List.mem_append_left _ mem⟩
  have listed : (segment, block, message) ∈ w.run.entryFailures ++ [(segment, block, message)] :=
    List.mem_append_right _ (List.mem_singleton_self _)
  unfold Steps blockFailed
  rw [wp_bind, wp_modify]
  split
  · rw [wp_bind, wp_modify, wp_bind, wp_get]
    split
    · exact .refl w.db
    · exact ⟨noted _, listed⟩
  · exact ⟨noted _, listed⟩

def BlockHandled (decoders : Decoders) (archive : Archive) (filter : RowFilter) (w : World)
    (name : String) (i : Nat) : Prop :=
  (∃ message, (name, some i, message) ∈ w.run.entryFailures) ∨
    (∃ message, (name, none, message) ∈ w.run.entryFailures) ∨
      ∀ row, Lies archive name i row → filter.keep row = true → RowHandled decoders w row

theorem BlockHandled.progress {filter : RowFilter} {name : String} {i : Nat}
    (h : BlockHandled decoders archive filter w name i) (moved : Progress w w') :
    BlockHandled decoders archive filter w' name i := by
  obtain ⟨message, noted⟩ | ⟨message, noted⟩ | rows := h
  · exact .inl ⟨message, moved.noted _ noted⟩
  · exact .inr (.inl ⟨message, moved.noted _ noted⟩)
  · exact .inr (.inr fun row lies kept => (rows row lies kept).progress moved)

theorem foldBlock_progress (filter : RowFilter) {name : String} {i : Nat} {rows : List Row}
    (here : (archive name)[i]? = some rows) :
    Steps Progress Stops (foldRows decoders jobId tracked filter rows)
      (fun _ w' => BlockHandled decoders archive filter w' name i) w := by
  refine steps_mono (foldRows_progress filter rows) fun _ w' _ handled => .inr (.inr ?_)
  rintro row ⟨rows', found, mem⟩ kept
  rw [here] at found
  cases found
  exact handled row mem kept

theorem failBlock_progress (filter : RowFilter) (name : String) (i : Nat) (message : String)
    (outage : Bool) :
    Steps Progress Stops (blockFailed name (some i) message outage)
      (fun _ w' => BlockHandled decoders archive filter w' name i) w :=
  steps_mono (blockFailed_progress ..) fun _ _ _ noted => .inl ⟨message, noted⟩

theorem segmentBlocks_progress (filter : RowFilter) (name : String) {i : Nat}
    {blocks : List (List Row)} (left : blocks = (archive name).drop i) :
    Steps Progress Stops (segmentBlocks decoders jobId tracked filter name i blocks)
      (fun _ w' => ∀ j ≥ i, BlockHandled decoders archive filter w' name j) w := by
  induction blocks generalizing i w with
  | nil =>
    refine steps_pure progress_chains fun j past => .inr (.inr ?_)
    rintro row ⟨rows, found, -⟩
    have short := List.drop_eq_nil_iff.mp left.symm
    rw [List.getElem?_eq_none (short.trans past)] at found
    cases found
  | cons rows rest ih =>
    have here : (archive name)[i]? = some rows := by
      rw [← List.head?_drop, ← left]
      rfl
    have later : rest = (archive name).drop (i + 1) := by
      rw [← List.tail_drop, ← left]
      rfl
    have next (v : World) (first : BlockHandled decoders archive filter v name i) :
        Steps Progress Stops (segmentBlocks decoders jobId tracked filter name (i + 1) rest)
          (fun _ u => ∀ j ≥ i, BlockHandled decoders archive filter u name j) v := by
      refine steps_mono (ih later) fun _ u further others j past => ?_
      obtain rfl | past := past.eq_or_lt
      · exact first.progress further
      · exact others j past
    refine steps_bind progress_chains ask_progress fun reply w' _ _ => ?_
    dsimp only
    split
    · exact steps_bind progress_chains (foldBlock_progress filter here) fun _ v _ => next v
    · exact steps_bind progress_chains (failBlock_progress ..) fun _ v _ => next v

theorem wholeSegment_progress (filter : RowFilter) (name : String) :
    Steps Progress Stops (wholeSegment decoders archive jobId tracked filter name)
      (fun _ w' => ∀ i, BlockHandled decoders archive filter w' name i) w := by
  have failed (message : String) (outage : Bool) (w : World) :
      Steps Progress Stops (blockFailed name none message outage)
        (fun _ w' => ∀ i, BlockHandled decoders archive filter w' name i) w :=
    steps_mono (blockFailed_progress ..) fun _ _ _ noted i => .inr (.inl ⟨message, noted⟩)
  refine steps_bind progress_chains ask_progress fun created w' _ _ => ?_
  split
  · exact .refl w'.db
  refine steps_bind progress_chains ask_progress fun got w' _ _ => ?_
  split
  · exact failed ..
  refine steps_bind progress_chains ask_progress fun opened w' _ _ => ?_
  split
  · exact failed ..
  · exact steps_mono (segmentBlocks_progress filter name rfl) fun _ _ _ all i =>
      all i (Nat.zero_le i)

theorem fetchBlocks_progress (filter : RowFilter) (name : String) (indexes : List Nat) :
    Steps Progress Stops (fetchBlocks decoders archive jobId tracked filter name indexes)
      (fun _ w' => ∀ i ∈ indexes, BlockHandled decoders archive filter w' name i) w := by
  induction indexes generalizing w with
  | nil => exact steps_pure progress_chains (by simp)
  | cons i rest ih =>
    have next (v : World) (first : BlockHandled decoders archive filter v name i) :
        Steps Progress Stops (fetchBlocks decoders archive jobId tracked filter name rest)
          (fun _ u => ∀ j ∈ i :: rest, BlockHandled decoders archive filter u name j) v := by
      refine steps_mono ih fun _ u further others j mem => ?_
      obtain rfl | mem := List.mem_cons.mp mem
      · exact first.progress further
      · exact others j mem
    refine steps_bind progress_chains ask_progress fun reply w' _ _ => ?_
    dsimp only
    split
    next here =>
      exact steps_bind progress_chains (foldBlock_progress filter here) fun _ v _ => next v
    · exact steps_bind progress_chains (failBlock_progress ..) fun _ v _ => next v
    · exact steps_bind progress_chains (failBlock_progress ..) fun _ v _ => next v

/-! ## Entries -/

def PlanEntry.Includes (entry : PlanEntry) (name : String) (i : Nat) : Prop :=
  entry.name = name ∧ (entry.mode = .segment ∨ i ∈ entry.indexes)

/-- All that the block holds for the filter is accounted for. -/
def BlockAccounted (decoders : Decoders) (archive : Archive) (filter : RowFilter) (db : ReplayDb)
    (name : String) (i : Nat) : Prop :=
  ∀ row, Lies archive name i row → filter.keep row = true → Accounted decoders db name i row

theorem recordAll_progress (failures : List (String × Option Nat × String)) :
    Steps Advances Stops (recordAll failures)
      (fun _ w' => ∀ f ∈ failures, (f.1, f.2.1) ∈ w'.db.failures) w := by
  induction failures generalizing w with
  | nil => exact steps_pure advances_chains (by simp)
  | cons failure rest ih =>
    obtain ⟨segment, block, message⟩ := failure
    refine steps_bind advances_chains ask_advances fun reply w' _ _ => ?_
    split
    · exact .refl w'.db
    have recorded : Steps Advances Stops (modify fun w : World =>
        { w with db := { w.db with failures := w.db.failures ++ [(segment, block)] } } :
          Replay Unit)
        (fun _ v => (segment, block) ∈ v.db.failures) w' :=
      ⟨⟨⟨rfl, fun _ h => h, fun x mem => List.mem_append_left _ mem⟩, fun _ h => h⟩,
        List.mem_append_right _ (List.mem_singleton_self _)⟩
    refine steps_bind advances_chains recorded fun _ v _ first => ?_
    refine steps_mono ih fun _ u further others f mem => ?_
    obtain rfl | mem := List.mem_cons.mp mem
    · exact further.failures _ first
    · exact others f mem

theorem recordFailures_accounts {filter : RowFilter} (flushed : w.run.fold.pending = []) :
    Steps Advances Stops recordFailures (fun _ w' => ∀ name i,
      BlockHandled decoders archive filter w name i →
        BlockAccounted decoders archive filter w'.db name i) w := by
  unfold recordFailures setEntryFailures
  refine wp_bind.mpr (wp_get.mpr (wp_bind.mpr (wp_modify.mpr ?_)))
  refine wp_mono (recordAll_progress w.run.entryFailures) ?_ fun _ stopped => stopped
  rintro - w' ⟨advanced, recorded⟩
  refine ⟨⟨advanced.toKeeps, advanced.script⟩, fun name i handled row lies kept => ?_⟩
  obtain ⟨message, noted⟩ | ⟨message, noted⟩ | rows := handled
  · exact .inr (.inr (.inl (recorded _ noted)))
  · exact .inr (.inr (.inr (recorded _ noted)))
  · obtain undecodable | ⟨event, read, buffered | took⟩ := rows row lies kept
    · exact .inr (.inl undecodable)
    · rw [flushed] at buffered
      cases buffered
    · exact .inl ⟨event, read, took.mono advanced.settled⟩

theorem progress_advances {α : Type} {x : Replay α} {post : α → World → Prop}
    (h : Steps Progress Stops x post w) : Steps Advances Stops x post w :=
  wp_mono h (fun _ _ ⟨moved, reached⟩ => ⟨moved.toAdvances, reached⟩) fun _ stopped => stopped

theorem entry_accounts (filter : RowFilter) (next : PlanEntry) :
    Steps Advances Stops (entry decoders archive jobId tracked filter next)
      (fun _ w' => ∀ name i, next.Includes name i →
        BlockAccounted decoders archive filter w'.db name i) w := by
  have closes (v : World) (handled : ∀ name i, next.Includes name i →
      BlockHandled decoders archive filter v name i) :
      Steps Advances Stops (do flush jobId; recordFailures) (fun _ w' => ∀ name i,
        next.Includes name i → BlockAccounted decoders archive filter w'.db name i) v := by
    have flushes : Steps Advances Stops (flush jobId) (fun _ u => u.run.fold.pending = [] ∧
        ∀ name i, next.Includes name i → BlockHandled decoders archive filter u name i) v :=
      progress_advances (steps_mono flush_progress fun _ u moved flushed =>
        ⟨flushed, fun name i included => (handled name i included).progress moved⟩)
    refine steps_bind advances_chains flushes fun _ u _ ⟨flushed, handled⟩ => ?_
    exact steps_mono (recordFailures_accounts flushed) fun _ _ _ accounts name i included =>
      accounts name i (handled name i included)
  have cleared : Steps Advances Stops (setEntryFailures []) (fun _ _ => True) w :=
    ⟨⟨.refl w.db, fun _ h => h⟩, trivial⟩
  refine steps_bind advances_chains cleared fun _ w' _ _ => ?_
  dsimp only
  split
  next mode =>
    refine steps_bind advances_chains (progress_advances (wholeSegment_progress filter next.name))
      fun _ v _ all => closes v ?_
    rintro name i ⟨rfl, -⟩
    exact all i
  next mode =>
    refine steps_bind advances_chains
      (progress_advances (fetchBlocks_progress filter next.name next.indexes))
      fun _ v _ all => closes v ?_
    rintro name i ⟨rfl, whole | listed⟩
    · rw [mode] at whole
      cases whole
    · exact all i listed

end HappyView.Backfill
