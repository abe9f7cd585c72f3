import HappyView.Labeler.SubscriptionCache

/-!
# The cache of labeler subscriptions is coherent

A call that begins after an `invalidate` has returned answers with a list read no earlier than
the change before it. If a load has read the table before the change, then it has read the
generation before it as well. Either it compares generations after the `invalidate` moved its own
on, and does not store, or it has the lock before the slot is cleared. The comparison is one of 64
bits, so this holds as long as no load lasts for 2^64 invalidations.
-/

namespace HappyView.Labeler

open HappyView.Foundation

def bumps (actions : List Action) : Nat :=
  actions.countP fun action => action matches .bump _

/-- No load lasts for 2^64 invalidations. -/
def Brief (actions : List Action) : Prop :=
  ∀ i before during after,
    actions = before ++ .loadGeneration i :: during ++ .lock i :: after → bumps during < 2 ^ 64

theorem Brief.before {actions more : List Action} (brief : Brief (actions ++ more)) :
    Brief actions := by
  intro i before during after same
  refine brief i before during (after ++ more) ?_
  simp [same]

@[simp] theorem bumps_append (as bs : List Action) : bumps (as ++ bs) = bumps as + bumps bs :=
  List.countP_append

/-! ## What is known of the versions -/

def Read (db : Database) (rows : Snapshot) : Prop :=
  ∃ table, db.at rows.version = some table ∧ rows.dids = activeDids table

/-- The generation was moved on after the change to this version. -/
def State.Bumped (s : State) (version : Nat) : Prop :=
  ∃ w, s.writers.lookup w = some (.bumped version) ∨ s.writers.lookup w = some (.returned version)

/-- An `invalidate` after the change to this version has returned. -/
def State.Invalidated (s : State) (version : Nat) : Prop :=
  ∃ w, s.writers.lookup w = some (.returned version)

theorem State.Invalidated.bumped {s : State} {version : Nat} (done : s.Invalidated version) :
    s.Bumped version := by
  obtain ⟨w, held⟩ := done
  exact ⟨w, .inr held⟩

theorem State.Bumped.of_insert {s t : State} {w version : Nat} {writer : Writer}
    (h : t.Bumped version) (writers : t.writers = s.writers.insert w writer) :
    (writer = .bumped version ∨ writer = .returned version) ∨ s.Bumped version := by
  obtain ⟨v, held | held⟩ := h
  all_goals
    rw [writers] at held
    rcases lookup_insert_cases held with ⟨-, rfl⟩ | old
  · exact .inl (.inl rfl)
  · exact .inr ⟨v, .inl old⟩
  · exact .inl (.inr rfl)
  · exact .inr ⟨v, .inr old⟩

theorem State.Invalidated.of_insert {s t : State} {w version : Nat} {writer : Writer}
    (h : t.Invalidated version) (writers : t.writers = s.writers.insert w writer) :
    writer = .returned version ∨ s.Invalidated version := by
  obtain ⟨v, held⟩ := h
  rw [writers] at held
  rcases lookup_insert_cases held with ⟨-, rfl⟩ | old
  · exact .inl rfl
  · exact .inr ⟨v, old⟩

theorem read_now (db : Database) : Read db ⟨db.version, activeDids db.rows⟩ :=
  ⟨db.rows, by simp [Database.at, Database.version], rfl⟩

theorem Read.change {db : Database} {rows : Snapshot} (read : Read db rows)
    (after : Subscriptions) : Read (db.change after) rows := by
  obtain ⟨table, held, same⟩ := read
  refine ⟨table, ?_, same⟩
  obtain ⟨bound, -⟩ := List.getElem?_eq_some_iff.mp held
  rwa [Database.at, Database.change, List.getElem?_append_left bound]

def Load (actions : List Action) (s : State) (i : Nat) : Call → Prop
  | .missed | .failed => True
  | .loaded generation => ∃ before during,
      actions = before ++ .loadGeneration i :: during ∧ generation = .ofNat (bumps before)
  | .fetched generation rows => Read s.db rows ∧ ∃ before during,
      actions = before ++ .loadGeneration i :: during ∧ generation = .ofNat (bumps before) ∧
      (bumps during = 0 → ∀ version, s.Bumped version → version ≤ rows.version)
  | .storing rows => Read s.db rows ∧ s.holder = some i ∧
      ∀ version, s.Invalidated version → version ≤ rows.version
  | .returned rows => Read s.db rows

structure Invariant (actions : List Action) (s : State) : Prop where
  generation : s.generation = .ofNat (bumps actions)
  writers : ∀ w writer, s.writers.lookup w = some writer → writer.version ≤ s.db.version
  calls : ∀ i call, s.calls.lookup i = some call → Load actions s i call
  slot : ∀ rows, s.cached = some rows →
    Read s.db rows ∧ ∀ version, s.Invalidated version → version ≤ rows.version

section Step

variable {actions : List Action} {s t : State} {a : Action} {i w : Nat}

theorem Load.later {call : Call} (load : Load actions s i call)
    (db : ∀ rows, Read s.db rows → Read t.db rows)
    (bumped : bumps [a] = 0 → ∀ version, t.Bumped version → s.Bumped version)
    (storing : ∀ rows, call = .storing rows → s.holder = some i →
      t.holder = some i ∧ ∀ version, t.Invalidated version → s.Invalidated version) :
    Load (actions ++ [a]) t i call := by
  cases call with
  | missed | failed => trivial
  | loaded generation =>
    obtain ⟨before, during, same, value⟩ := load
    exact ⟨before, during ++ [a], by simp [same], value⟩
  | fetched generation rows =>
    obtain ⟨read, before, during, same, value, covers⟩ := load
    refine ⟨db rows read, before, during ++ [a], by simp [same], value, fun quiet version h => ?_⟩
    rw [bumps_append] at quiet
    exact covers (by omega) version (bumped (by omega) version h)
  | storing rows =>
    obtain ⟨read, holder, covers⟩ := load
    obtain ⟨holder', invalidated⟩ := storing rows rfl holder
    exact ⟨db rows read, holder', fun version h => covers version (invalidated version h)⟩
  | returned rows => exact db rows load

theorem Invariant.ofCall {call : Call} (inv : Invariant actions s) (quiet : bumps [a] = 0)
    (db : t.db = s.db) (generation : t.generation = s.generation) (writers : t.writers = s.writers)
    (calls : t.calls = s.calls.insert i call)
    (holder : ∀ j, j ≠ i → s.holder = some j → t.holder = some j)
    (load : Load (actions ++ [a]) t i call)
    (slot : ∀ rows, t.cached = some rows → s.cached = some rows ∨
      Read s.db rows ∧ ∀ version, s.Invalidated version → version ≤ rows.version) :
    Invariant (actions ++ [a]) t := by
  have invalidated (version : Nat) : t.Invalidated version ↔ s.Invalidated version := by
    rw [State.Invalidated, writers, State.Invalidated]
  have bumped (version : Nat) : t.Bumped version ↔ s.Bumped version := by
    rw [State.Bumped, writers, State.Bumped]
  refine ⟨?_, ?_, fun j other held => ?_, fun rows held => ?_⟩
  · rw [generation, inv.generation, bumps_append, quiet, add_zero]
  · rw [writers, db]
    exact inv.writers
  · rw [calls] at held
    by_cases same : j = i
    · subst same
      rw [AList.lookup_insert] at held
      cases held
      exact load
    · rw [AList.lookup_insert_ne same] at held
      refine (inv.calls j other held).later (db ▸ fun _ read => read)
        (fun _ version h => (bumped version).mp h) fun rows _ here => ?_
      exact ⟨holder j same here, fun version h => (invalidated version).mp h⟩
  · rw [db]
    obtain ⟨read, covers⟩ := (slot rows held).elim (inv.slot rows) id
    exact ⟨read, fun version h => covers version ((invalidated version).mp h)⟩

theorem Invariant.ofWriter {writer : Writer} (inv : Invariant actions s)
    (generation : t.generation = .ofNat (bumps (actions ++ [a])))
    (version : writer.version ≤ t.db.version) (grows : s.db.version ≤ t.db.version)
    (db : ∀ rows, Read s.db rows → Read t.db rows) (calls : t.calls = s.calls)
    (writers : t.writers = s.writers.insert w writer) (holder : t.holder = s.holder)
    (bumped : bumps [a] = 0 → ∀ version, t.Bumped version → s.Bumped version)
    (covers : s.cached ≠ none ∧ t.cached ≠ none ∨ s.holder.isSome →
      ∀ version, t.Invalidated version → s.Invalidated version)
    (slot : ∀ rows, t.cached = some rows → s.cached = some rows) :
    Invariant (actions ++ [a]) t := by
  refine ⟨generation, fun v other held => ?_, fun j call held => ?_, fun rows held => ?_⟩
  · rw [writers] at held
    rcases lookup_insert_cases held with ⟨-, rfl⟩ | old
    · exact version
    · exact (inv.writers v other old).trans grows
  · rw [calls] at held
    refine (inv.calls j call held).later db bumped fun rows _ here => ?_
    exact ⟨holder.trans here, covers (.inr (by simp [here]))⟩
  · have before := slot rows held
    obtain ⟨read, older⟩ := inv.slot rows before
    refine ⟨db rows read, fun version h => older version ?_⟩
    exact covers (.inl ⟨by simp [before], by simp [held]⟩) version h

theorem bumps_eq_zero (before : List Action) {during : List Action} (short : bumps during < 2 ^ 64)
    (same : UInt64.ofNat (bumps (before ++ during)) = .ofNat (bumps before)) :
    bumps during = 0 := by
  have values : (bumps before + bumps during) % 2 ^ 64 = bumps before % 2 ^ 64 := by
    simpa using congrArg UInt64.toNat same
  omega

section Actions

variable (inv : Invariant actions s)

include inv

theorem Invariant.readSlot (stepped : step s (.readSlot i) = some t) :
    Invariant (actions ++ [.readSlot i]) t := by
  simp only [step] at stepped
  split at stepped
  · cases stepped
  cases stepped
  refine inv.ofCall rfl rfl rfl rfl rfl (fun _ _ h => h) ?_ fun _ h => .inl h
  cases found : s.cached with
  | none => trivial
  | some rows => exact (inv.slot rows found).1

theorem Invariant.loadGeneration (stepped : step s (.loadGeneration i) = some t) :
    Invariant (actions ++ [.loadGeneration i]) t := by
  simp only [step] at stepped
  split at stepped
  · cases stepped
    refine inv.ofCall rfl rfl rfl rfl rfl (fun _ _ h => h) ?_ fun _ h => .inl h
    exact ⟨actions, [], rfl, inv.generation⟩
  · cases stepped

theorem Invariant.fetch (stepped : step s (.fetch i) = some t) :
    Invariant (actions ++ [.fetch i]) t := by
  simp only [step] at stepped
  split at stepped
  · rename_i generation held
    cases stepped
    refine inv.ofCall rfl rfl rfl rfl rfl (fun _ _ h => h) ?_ fun _ h => .inl h
    obtain ⟨before, during, same, value⟩ := inv.calls i _ held
    refine ⟨read_now s.db, before, during ++ [.fetch i], by simp [same], value, ?_⟩
    rintro - version ⟨w, bumped | returned⟩
    · exact inv.writers w _ bumped
    · exact inv.writers w _ returned
  · cases stepped

theorem Invariant.fetchFails (stepped : step s (.fetchFails i) = some t) :
    Invariant (actions ++ [.fetchFails i]) t := by
  simp only [step] at stepped
  split at stepped
  · cases stepped
    exact inv.ofCall rfl rfl rfl rfl rfl (fun _ _ h => h) trivial fun _ h => .inl h
  · cases stepped

theorem Invariant.lock (brief : Brief (actions ++ [.lock i]))
    (stepped : step s (.lock i) = some t) : Invariant (actions ++ [.lock i]) t := by
  simp only [step] at stepped
  split at stepped
  · rename_i generation rows held free
    obtain ⟨read, before, during, rfl, value, covers⟩ := inv.calls i _ held
    split at stepped
    · rename_i same
      cases stepped
      refine inv.ofCall rfl rfl rfl rfl rfl ?_ ⟨read, rfl, ?_⟩ fun _ h => .inl h
      · intro j _ taken
        rw [free] at taken
        cases taken
      · -- The generation is the one before the load, so every bump came before the fetch.
        have short := brief i before during [] (by simp)
        have quiet : bumps during = 0 := by
          refine bumps_eq_zero before short ?_
          rw [← value, ← same.2, inv.generation]
          simp [bumps]
        exact fun version h => covers quiet version h.bumped
    · cases stepped
      exact inv.ofCall rfl rfl rfl rfl rfl (fun _ _ h => h) read fun _ h => .inl h
  · cases stepped

theorem Invariant.store (stepped : step s (.store i) = some t) :
    Invariant (actions ++ [.store i]) t := by
  simp only [step] at stepped
  split at stepped
  · rename_i rows held
    cases stepped
    obtain ⟨read, holder, covers⟩ := inv.calls i _ held
    refine inv.ofCall rfl rfl rfl rfl rfl (fun j other taken => ?_) read fun other found => ?_
    · exact absurd (Option.some.inj (taken.symm.trans holder)) other
    · have stored : other = rows := by
        cases poisoned : s.poisoned <;> simp_all [State.cached, State.setCall]
      exact .inr (stored ▸ ⟨read, covers⟩)
  · cases stepped

theorem Invariant.panic (stepped : step s (.panic i) = some t) :
    Invariant (actions ++ [.panic i]) t := by
  simp only [step] at stepped
  split at stepped
  · rename_i rows held
    cases stepped
    obtain ⟨-, holder, -⟩ := inv.calls i _ held
    refine inv.ofCall rfl rfl rfl rfl rfl (fun j other taken => ?_) trivial nofun
    exact absurd (Option.some.inj (taken.symm.trans holder)) other
  · cases stepped

theorem Invariant.change {change} (stepped : step s (.change w change) = some t) :
    Invariant (actions ++ [.change w change]) t := by
  simp only [step] at stepped
  split at stepped
  · cases stepped
  obtain ⟨rows, -, rfl⟩ := Option.map_eq_some_iff.mp stepped
  have grown : (s.db.change rows).version = s.db.version + 1 := by
    simp [Database.change, Database.version]
  have known : (Writer.changed (s.db.version + 1)).version ≤ (s.db.change rows).version :=
    grown.ge
  refine inv.ofWriter (inv.generation.trans (by simp [bumps])) known (by simp [grown])
    (fun _ read => read.change rows) rfl rfl rfl ?_ ?_ fun _ h => h
  · rintro - version h
    exact (h.of_insert rfl).resolve_left (by simp)
  · rintro - version h
    exact (h.of_insert rfl).resolve_left nofun

theorem Invariant.bump (stepped : step s (.bump w) = some t) :
    Invariant (actions ++ [.bump w]) t := by
  simp only [step] at stepped
  split at stepped
  · rename_i version held
    cases stepped
    have moved : s.generation + 1 = .ofNat (bumps (actions ++ [.bump w])) := by
      rw [inv.generation, bumps_append]
      exact (UInt64.ofNat_add _ _).symm
    have known : (Writer.bumped version).version ≤ s.db.version :=
      inv.writers w (.changed version) held
    refine inv.ofWriter moved known le_rfl (fun _ read => read) rfl rfl rfl nofun ?_ fun _ h => h
    rintro - version h
    exact (h.of_insert rfl).resolve_left nofun
  · cases stepped

theorem Invariant.clear (stepped : step s (.clear w) = some t) :
    Invariant (actions ++ [.clear w]) t := by
  simp only [step] at stepped
  split at stepped
  · rename_i version held free
    cases stepped
    have cleared : ({ s.setWriter w (.returned version) with
        active := if s.poisoned then s.active else none } : State).cached = none := by
      simp only [State.cached, State.setWriter]
      split <;> simp_all
    have known : (Writer.returned version).version ≤ s.db.version :=
      inv.writers w (.bumped version) held
    refine inv.ofWriter (inv.generation.trans (by simp [bumps])) known le_rfl
      (fun _ read => read) rfl rfl rfl ?_ ?_ fun rows h => ?_
    · rintro - other h
      rcases h.of_insert rfl with (new | new) | old
      · cases new
      · cases new
        exact ⟨w, .inl held⟩
      · exact old
    · rintro (⟨-, slot⟩ | taken)
      · exact absurd cleared slot
      · simp [free] at taken
    · rw [cleared] at h
      cases h
  · cases stepped

end Actions

theorem step_invariant (inv : Invariant actions s) (brief : Brief (actions ++ [a]))
    (stepped : step s a = some t) : Invariant (actions ++ [a]) t := by
  cases a with
  | readSlot => exact inv.readSlot stepped
  | loadGeneration => exact inv.loadGeneration stepped
  | fetch => exact inv.fetch stepped
  | fetchFails => exact inv.fetchFails stepped
  | lock => exact inv.lock brief stepped
  | store => exact inv.store stepped
  | panic => exact inv.panic stepped
  | change => exact inv.change stepped
  | bump => exact inv.bump stepped
  | clear => exact inv.clear stepped

end Step

theorem run_invariant {rows : Subscriptions} {actions : List Action} {s : State}
    (run : (cache rows).run actions = some s) (brief : Brief actions) : Invariant actions s := by
  refine Machine.induct (P := fun actions s => Brief actions → Invariant actions s) ?_ ?_ run brief
  · intro _
    exact ⟨rfl, by simp [cache], by simp [cache], nofun⟩
  · intro actions s a t inv stepped brief
    exact step_invariant (inv brief.before) brief stepped

/-! ## One call -/

/-- What the call has read is of this version or a later one. -/
structure Fresh (i version : Nat) (s : State) : Prop where
  table : version ≤ s.db.version
  call : ∃ call, s.calls.lookup i = some call ∧
    ∀ rows, call.rows = some rows → version ≤ rows.version

section Fresh

variable {s t : State} {a : Action} {i version : Nat}

theorem Fresh.ofCall {j : Nat} {before after : Call} (fresh : Fresh i version s)
    (db : t.db = s.db) (held : s.calls.lookup j = some before)
    (calls : t.calls = s.calls.insert j after)
    (rows : ∀ rows, after.rows = some rows →
      before.rows = some rows ∨ rows.version = s.db.version) : Fresh i version t := by
  obtain ⟨table, call, known, older⟩ := fresh
  refine ⟨db ▸ table, ?_⟩
  rw [calls]
  by_cases same : i = j
  · subst same
    rw [held] at known
    cases known
    refine ⟨after, AList.lookup_insert _, fun found now => ?_⟩
    rcases rows found now with old | new
    · exact older found old
    · exact new ▸ table
  · exact ⟨call, by rw [AList.lookup_insert_ne same, known], older⟩

theorem Fresh.ofWriter (fresh : Fresh i version s) (grows : s.db.version ≤ t.db.version)
    (calls : t.calls = s.calls) : Fresh i version t :=
  ⟨fresh.table.trans grows, calls ▸ fresh.call⟩

theorem step_fresh (fresh : Fresh i version s) (stepped : step s a = some t) :
    Fresh i version t := by
  cases a with
  | readSlot j =>
    simp only [step] at stepped
    split at stepped
    · cases stepped
    · rename_i new
      cases stepped
      obtain ⟨table, call, known, older⟩ := fresh
      have other : i ≠ j := by
        rintro rfl
        exact new (.inl (AList.lookup_isSome.mp (by simp [known])))
      exact ⟨table, call, by simp [State.setCall, AList.lookup_insert_ne other, known], older⟩
  | loadGeneration j | fetch j | fetchFails j | store j | panic j =>
    simp only [step] at stepped
    split at stepped
    · rename_i held
      cases stepped
      refine fresh.ofCall rfl held rfl fun rows now => ?_
      grind [Call.rows]
    · cases stepped
  | lock j =>
    simp only [step] at stepped
    split at stepped
    · rename_i held _
      split at stepped
      all_goals
        cases stepped
        exact fresh.ofCall rfl held rfl fun rows now => .inl now
    · cases stepped
  | change w change =>
    simp only [step] at stepped
    split at stepped
    · cases stepped
    obtain ⟨rows, -, rfl⟩ := Option.map_eq_some_iff.mp stepped
    exact fresh.ofWriter (by simp [Database.change, Database.version]) rfl
  | bump w | clear w =>
    simp only [step] at stepped
    split at stepped
    · cases stepped
      exact fresh.ofWriter le_rfl rfl
    · cases stepped

theorem runFrom_fresh {rows : Subscriptions} {actions : List Action} (fresh : Fresh i version s)
    (run : (cache rows).runFrom s actions = some t) : Fresh i version t := by
  induction actions generalizing s with
  | nil =>
    cases run
    exact fresh
  | cons a actions ih =>
    obtain ⟨u, stepped, rest⟩ := Machine.runFrom_cons.mp run
    exact ih (step_fresh fresh stepped) rest

end Fresh

/-- A call that begins now answers from a slot filled after every change whose `invalidate` has
returned, or reads the table itself. -/
theorem fresh_readSlot {actions : List Action} {s t : State} {i version : Nat}
    (inv : Invariant actions s) (done : s.Invalidated version)
    (stepped : step s (.readSlot i) = some t) : Fresh i version t := by
  simp only [step] at stepped
  split at stepped
  · cases stepped
  cases stepped
  obtain ⟨w, held⟩ := done
  refine ⟨inv.writers w (.returned version) held, _, AList.lookup_insert _, fun rows read => ?_⟩
  cases found : s.cached with
  | none =>
    rw [found] at read
    cases read
  | some cached =>
    rw [found] at read
    cases read
    exact (inv.slot rows found).2 version ⟨w, held⟩

/-- In every interleaving of calls of `active` and changes of the table, a call that begins after
an `invalidate` has returned answers with the active subscriptions of the table as it was at some
time since the change before the `invalidate`, if no load lasts for 2^64 invalidations. -/
theorem active_coherent {rows : Subscriptions} {before after : List Action} {s t : State}
    {w i version : Nat} {answer : Snapshot}
    (run : (cache rows).run before = some s)
    (invalidated : s.writers.lookup w = some (.returned version))
    (rest : (cache rows).runFrom s (.readSlot i :: after) = some t)
    (answered : t.calls.lookup i = some (.returned answer))
    (brief : Brief (before ++ .readSlot i :: after)) :
    version ≤ answer.version ∧
      ∃ table, t.db.at answer.version = some table ∧ answer.dids = activeDids table := by
  have whole : (cache rows).run (before ++ .readSlot i :: after) = some t :=
    Machine.runFrom_append.mpr ⟨s, run, rest⟩
  refine ⟨?_, (run_invariant whole brief).calls i _ answered⟩
  obtain ⟨u, stepped, later⟩ := Machine.runFrom_cons.mp rest
  have begins := fresh_readSlot (run_invariant run brief.before) ⟨w, invalidated⟩ stepped
  obtain ⟨-, call, held, fresh⟩ := runFrom_fresh begins later
  rw [answered] at held
  cases held
  exact fresh answer rfl

def overtaken : List Action :=
  [.readSlot 0, .loadGeneration 0, .fetch 0, .change 0 (.add "did:plc:labeler"), .bump 0, .clear 0,
    .lock 0]

theorem active_coherent_overtaken : ∃ s t answer, (cache []).run overtaken = some s ∧
    (cache []).runFrom s [.readSlot 1, .loadGeneration 1, .fetch 1, .lock 1, .store 1] = some t ∧
    s.calls.lookup 0 = some (.returned ⟨0, []⟩) ∧ t.calls.lookup 1 = some (.returned answer) ∧
    1 ≤ answer.version := by
  obtain ⟨s, run, checked⟩ := (Option.any_eq_true _ _).mp (by decide +kernel :
    ((cache []).run overtaken).any (fun s => s.calls.lookup 0 = some (.returned ⟨0, []⟩) ∧
      s.writers.lookup 0 = some (.returned 1) ∧
      ((cache []).runFrom s [.readSlot 1, .loadGeneration 1, .fetch 1, .lock 1, .store 1]).any
        (fun t => t.calls.lookup 1 = some (.returned ⟨1, ["did:plc:labeler"]⟩))) = true)
  obtain ⟨first, invalidated, more⟩ := of_decide_eq_true checked
  obtain ⟨t, rest, answered⟩ := (Option.any_eq_true _ _).mp more
  have second := of_decide_eq_true answered
  refine ⟨s, t, _, run, rest, first, second, ?_⟩
  refine (active_coherent run invalidated rest second fun i before during after same => ?_).1
  have few : bumps during ≤ bumps (overtaken ++ [.readSlot 1, .loadGeneration 1, .fetch 1,
      .lock 1, .store 1]) := by
    rw [same]
    simp [bumps]
    omega
  exact few.trans_lt (by decide)

/-! ## The generation comes round -/

def readd (w : Nat) : List Action := [.change w (.add "did:plc:labeler"), .bump w, .clear w]

def readds (w : Nat) : Nat → List Action
  | 0 => []
  | n + 1 => readd w ++ readds (w + 1) n

/-- Nobody holds the lock, and the numbers from `w` on are free. -/
structure Idle (w : Nat) (s : State) : Prop where
  free : s.holder = none
  sound : s.poisoned = false
  unused : ∀ v, w ≤ v → s.writers.lookup v = none

theorem execute_add (rows : Subscriptions) (did : String) :
    ∃ after, Change.execute rows (.add did) = some after := by
  cases known : rows.any (·.did = did) <;> simp [Change.execute, known]

theorem run_readd (rows : Subscriptions) {w : Nat} {s : State} (idle : Idle w s) :
    ∃ t, (cache rows).runFrom s (readd w) = some t ∧ Idle (w + 1) t ∧ t.active = none ∧
      t.generation = s.generation + 1 ∧ t.calls = s.calls ∧
      t.writers.lookup w = some (.returned (s.db.version + 1)) ∧
      ∀ v, v ≠ w → t.writers.lookup v = s.writers.lookup v := by
  obtain ⟨after, executed⟩ := execute_add s.db.rows "did:plc:labeler"
  have new : w ∉ s.writers := AList.lookup_eq_none.mp (idle.unused w le_rfl)
  have changed : step s (.change w (.add "did:plc:labeler")) =
      some { s.setWriter w (.changed (s.db.version + 1)) with db := s.db.change after } := by
    simp [step, new, executed]
  refine ⟨_, Machine.runFrom_cons.mpr ⟨_, changed, Machine.runFrom_cons.mpr
    ⟨_, by simp [cache, step, State.setWriter]; rfl, Machine.runFrom_cons.mpr
      ⟨_, by simp [cache, step, State.setWriter, idle.free]; rfl, rfl⟩⟩⟩, ?_⟩
  refine ⟨⟨rfl, idle.sound, fun v later => ?_⟩, by simp [idle.sound], rfl, rfl, by simp, ?_⟩
  · have other : v ≠ w := by omega
    simp [AList.lookup_insert_ne other, idle.unused v (by omega)]
  · intro v other
    simp [AList.lookup_insert_ne other]

theorem run_readds (rows : Subscriptions) (n : Nat) {w : Nat} {s : State} (idle : Idle w s)
    (empty : s.active = none) :
    ∃ t, (cache rows).runFrom s (readds w n) = some t ∧ Idle (w + n) t ∧ t.active = none ∧
      t.generation = s.generation + .ofNat n ∧ t.calls = s.calls ∧
      ∀ v, v < w → t.writers.lookup v = s.writers.lookup v := by
  induction n generalizing w s with
  | zero => exact ⟨s, rfl, idle, empty, by simp, rfl, fun _ _ => rfl⟩
  | succ n ih =>
    obtain ⟨u, first, idle, empty, generation, calls, -, others⟩ := run_readd rows idle
    obtain ⟨t, rest, idle', empty', generation', calls', others'⟩ := ih idle empty
    refine ⟨t, Machine.runFrom_append.mpr ⟨u, first, rest⟩, ?_, empty', ?_, calls'.trans calls, ?_⟩
    · rwa [show w + (n + 1) = w + 1 + n by omega]
    · rw [generation', generation, UInt64.ofNat_add, UInt64.add_assoc,
        UInt64.add_comm (.ofNat n)]
      rfl
    · intro v early
      rw [others' v (by omega), others v (by omega)]

def loading : State where
  db := { rows := [] }
  calls := ((AList.insert 0 .missed ∅).insert 0 (.loaded 0)).insert 0 (.fetched 0 ⟨0, []⟩)

def longLoad : List Action :=
  [.readSlot 0, .loadGeneration 0, .fetch 0] ++
    (readd 0 ++ (readds (0 + 1) (2 ^ 64 - 1) ++ [.lock 0, .store 0]))

/-- A load that lasts for 2^64 invalidations finds the generation that it had loaded, and the next
call answers with the list from before the first of the changes. -/
theorem active_stale : ∃ before s t, (cache []).run before = some s ∧
    s.writers.lookup 0 = some (.returned 1) ∧
    (cache []).runFrom s [.readSlot 1] = some t ∧
    t.calls.lookup 1 = some (.returned ⟨0, []⟩) := by
  have load : (cache []).run [.readSlot 0, .loadGeneration 0, .fetch 0] = some loading := rfl
  obtain ⟨s, first, idle, empty, generation, calls, changed, -⟩ :=
    run_readd [] (w := 0) (s := loading) ⟨rfl, rfl, fun _ _ => rfl⟩
  obtain ⟨t, others, idle', -, generation', calls', kept⟩ :=
    run_readds [] (2 ^ 64 - 1) idle empty
  have round : t.generation = 0 := by
    rw [generation', generation]
    decide
  have held : t.calls.lookup 0 = some (.fetched 0 ⟨0, []⟩) := by
    rw [calls', calls]
    rfl
  have unused : 1 ∉ t.calls := by
    rw [calls', calls]
    decide
  obtain ⟨u, stored, slot, free, unused', writers⟩ : ∃ u,
      (cache []).runFrom t [.lock 0, .store 0] = some u ∧ u.cached = some ⟨0, []⟩ ∧
      u.holder = none ∧ 1 ∉ u.calls ∧ u.writers = t.writers := by
    have locked : step t (.lock 0) =
        some { t.setCall 0 (.storing ⟨0, []⟩) with holder := some 0 } := by
      simp [step, held, idle'.free, idle'.sound, round]
    refine ⟨{ t.setCall 0 (.returned ⟨0, []⟩) with active := some ⟨0, []⟩, holder := none },
      Machine.runFrom_cons.mpr ⟨_, locked, ?_⟩, ?_, rfl, ?_, rfl⟩
    · exact Machine.runFrom_cons.mpr ⟨_, by simp [cache, step, State.setCall], rfl⟩
    · simp [State.cached, State.setCall, idle'.sound]
    · simp [State.setCall, unused]
  have whole : (cache []).run longLoad = some u :=
    Machine.runFrom_append.mpr ⟨loading, load,
      Machine.runFrom_append.mpr ⟨s, first, Machine.runFrom_append.mpr ⟨t, others, stored⟩⟩⟩
  have answered : (cache []).runFrom u [.readSlot 1] = some (u.setCall 1 (.returned ⟨0, []⟩)) :=
    Machine.runFrom_cons.mpr ⟨_, by simp [cache, step, unused', free, slot], rfl⟩
  refine ⟨longLoad, u, _, whole, ?_, answered, by simp [State.setCall]⟩
  rw [writers, kept 0 (by omega), changed]
  rfl

end HappyView.Labeler
