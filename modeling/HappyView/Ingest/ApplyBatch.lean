import HappyView.Ingest.Events
import Mathlib.Data.List.Induction

/-!
# Applying a batch of events

Consecutive creates and updates of one origin are hooked one by one and written as one run;
any other event ends the run and is applied on its own. A batch that an external storage
claims whole is applied record by record, several at once.

Some events on their own are answered without a call that can fail (`decided`). What the hooks
decide and which calls fail for the others is given by `Calls`. Each call of a batch is made at
most once, so it is named by the place of its event in the batch.
-/

namespace HappyView.Ingest

open HappyView.Records

inductive HookedBody where
  | store (body : String)
  | skip
  | cidMismatch
  deriving DecidableEq

structure Applied where
  outcome : IngestOutcome
  changed : Bool
  deriving DecidableEq

/-- What the instance knows of collections: those it indexes, and those an external storage
claims, with the number of deltas that this can apply at once, if it has a limit. -/
structure Routes where
  tracked : String → Bool
  externalRoute : String → Option (Option Nat)
  /-- `BACKFILL_HOOK_CONCURRENCY`. -/
  configured : Nat
  /-- The account a network lexicon is taken from, if the lexicon is kept here. -/
  authorityDid : String → Option String
  /-- Whether a body parses as the lexicon of that name. -/
  lexiconParses : String → String → Bool
  /-- The collections that a sync event without its own is about. -/
  collections : List String

structure Calls where
  hook : Nat → HookedBody
  /-- How an event applies on its own, if that takes a call that can fail. -/
  apply : Nat → Applied
  /-- The write of a run by its events: the URIs it changed, or how it failed. -/
  write : List Nat → Except (IngestOutcome × String) (List String)

structure RunEntry where
  slot : Nat
  ev : RecordEvent
  prepared : PreparedRecord

structure Progress where
  out : BatchOutcome := {}
  run : List RunEntry := []
  /-- The events handed to the store so far: on their own, or in a run that was written. -/
  effects : List Nat := []

/-- What a batch comes to: the outcomes, the error text of a failed write, and the events
that were applied to the store. -/
structure Report where
  out : BatchOutcome
  error : Option String
  effects : List Nat

/-! ## Events on their own -/

/-- The outcome of a record event that `apply_record_changed` answers without a call that can
fail. -/
def decidedRecord (routes : Routes) (ev : RecordEvent) : Option IngestOutcome :=
  let bodiless := ev.action ≠ .delete ∧ ev.body = none
  if ev.key.collection = lexiconSchemaCollection then
    if routes.authorityDid ev.key.rkey ≠ some ev.key.did then some .schemaEvent
    else if bodiless ∨ ev.action ≠ .delete ∧ ev.body.any (!routes.lexiconParses ev.key.rkey ·) then
      some .invalid
    else none
  else if routes.tracked ev.key.collection = false then some .skipped
  else if (routes.externalRoute ev.key.collection).isSome ∧ ev.stored = false then some .invalid
  else if bodiless then some .invalid
  else none

/-- The outcome of an event that `apply_in` answers without a call that can fail. -/
def decided (routes : Routes) : SourceEvent → Option IngestOutcome
  | .record ev => decidedRecord routes ev
  | .account ev =>
    -- An old deactivation is no news.
    if ev.active = false ∧ ev.asOfUs.isSome ∧
        ev.status ∉ [some "deleted", some "takendown", some "suspended"] then
      some .matched
    else none
  | .sync ev =>
    -- A purge of no collection asks the database nothing.
    if (ev.collections.getD routes.collections).all (· = lexiconSchemaCollection) then
      some .matched
    else none
  | .identity .. => some .skipped

theorem not_isFailure_of_decided {routes : Routes} {event : SourceEvent} {outcome : IngestOutcome}
    (h : decided routes event = some outcome) : outcome.isFailure = false := by
  cases event <;> simp only [decided, decidedRecord] at h <;> grind [IngestOutcome.isFailure]

def prepare (ev : RecordEvent) (body : String) : PreparedRecord :=
  ⟨ev.key, body, ev.cid.getD "", ev.rev⟩

/-! ## Runs -/

def settleChanged (changed : List Bool) : List RunEntry → List String → List Bool
  | [], _ => changed
  | entry :: earlier, uris =>
    if entry.ev.key.uri ∈ uris then
      settleChanged (changed.set entry.slot true) earlier (uris.erase entry.ev.key.uri)
    else settleChanged changed earlier uris

/-- On failure the outcomes are cut back to the first of the run. -/
def writeRun (calls : Calls) (p : Progress) : Progress × Option (IngestOutcome × String) :=
  match p.run with
  | [] => (p, none)
  | first :: _ =>
    let slots := p.run.map (·.slot)
    match calls.write slots with
    | .ok uris => (
        { out := { p.out with changed := settleChanged p.out.changed p.run.reverse uris.dedup }
          run := []
          effects := p.effects ++ slots }, none)
    | .error failure => (
        { out :=
            { outcomes := p.out.outcomes.take first.slot
              changed := p.out.changed.take first.slot }
          run := []
          effects := p.effects }, some failure)

def fillFailed (out : BatchOutcome) (total : Nat) (outcome : IngestOutcome) : BatchOutcome where
  outcomes := out.outcomes.take total ++ List.replicate (total - out.outcomes.length) outcome
  changed := out.changed.take total ++ List.replicate (total - out.changed.length) false

def Progress.push (p : Progress) (outcome : IngestOutcome) (changed : Bool) : Progress :=
  { p with out := ⟨p.out.outcomes ++ [outcome], p.out.changed ++ [changed]⟩ }

def flushThen (calls : Calls) (total : Nat) (p : Progress) (next : Progress → Report) : Report :=
  match writeRun calls p with
  | (p, none) => next p
  | (p, some (outcome, error)) => ⟨fillFailed p.out total outcome, some error, p.effects⟩

/-! ## The loop -/

/-- The record of an event that joins a run, with its body: a create or update in a tracked
collection that this instance stores itself. -/
def runRecord (routes : Routes) : SourceEvent → Option (RecordEvent × String)
  | .record ev =>
    if ev.action ≠ .delete ∧ ev.key.collection ≠ lexiconSchemaCollection ∧
        routes.externalRoute ev.key.collection = none ∧ routes.tracked ev.key.collection then
      ev.body.map (ev, ·)
    else none
  | _ => none

def Progress.apply (p : Progress) (index : Nat) (applied : Applied) : Progress :=
  { p.push applied.outcome applied.changed with effects := p.effects ++ [index] }

def Progress.applyIn (routes : Routes) (calls : Calls) (p : Progress) (index : Nat)
    (event : SourceEvent) : Progress :=
  match decided routes event with
  | some outcome => p.push outcome false
  | none => p.apply index (calls.apply index)

def Progress.join (p : Progress) (ev : RecordEvent) (body : String) : Progress :=
  { p.push .matched false with
    run := p.run ++ [⟨p.out.outcomes.length, ev, prepare ev body⟩] }

def applyFrom (routes : Routes) (calls : Calls) (total : Nat) :
    List SourceEvent → Nat → Progress → Report
  | [], _, p => flushThen calls total p fun p => ⟨p.out, none, p.effects⟩
  | event :: rest, index, p =>
    let go := applyFrom routes calls total rest (index + 1)
    match runRecord routes event with
    | some (ev, _) =>
      match calls.hook index with
      | .store body =>
        -- A run is written under one origin's pool: a change of origin ends it.
        if p.run.getLast?.any (·.ev.origin ≠ ev.origin) then
          flushThen calls total p fun p => go (p.join ev body)
        else go (p.join ev body)
      | .skip | .cidMismatch => go (p.push .skipped false)
    | none => flushThen calls total p fun p => go (p.applyIn routes calls index event)

/-- The loop of `batch_concurrency`, with the URIs seen so far. -/
def lowerLimit (routes : Routes) : List SourceEvent → List String → Nat → Nat
  | [], _, limit => limit
  | .record ev :: rest, uris, limit =>
    match ev.origin with
    | .backfill _ =>
      if ev.key.uri ∈ uris then 1
      else
        let limit := match routes.externalRoute ev.key.collection with
          | some (some most) => if most < limit then max most 1 else limit
          | _ => limit
        lowerLimit routes rest (ev.key.uri :: uris) limit
    | _ => 1
  | _ :: _, _, _ => 1

/-- More than one only for a batch of backfill records with no key twice; a storage that
claims a collection can lower it. -/
def batchConcurrency (routes : Routes) (events : List SourceEvent) : Nat :=
  if routes.configured = 1 then 1 else lowerLimit routes events [] routes.configured

def isClaimed (routes : Routes) : SourceEvent → Bool
  | .record ev => (routes.externalRoute ev.key.collection).isSome
  | _ => false

def applyEach (routes : Routes) (calls : Calls) (events : List SourceEvent) : Progress :=
  events.zipIdx.foldl (fun p entry => p.applyIn routes calls entry.2 entry.1) {}

def applyClaimed (routes : Routes) (calls : Calls) (events : List SourceEvent) : Report :=
  let p := applyEach routes calls events
  ⟨p.out, none, p.effects⟩

def applyEvents (routes : Routes) (calls : Calls) (events : List SourceEvent) : Report :=
  if 1 < batchConcurrency routes events ∧ events.all (isClaimed routes) then
    applyClaimed routes calls events
  else applyFrom routes calls events.length events 0 {}

/-! ## Stopping at a failure -/

/-- One outcome per event; after a failure the later events take no effect, and their
outcomes report it. -/
structure StopsAtFailure (total : Nat) (r : Report) : Prop where
  outcomes : r.out.outcomes.length = total
  changed : r.out.changed.length = total
  reports : ∀ i j outcome, i < j → j < total → r.out.outcomes[i]? = some outcome →
    outcome.isFailure = true → r.out.outcomes[j]? = some outcome
  stops : ∀ i j outcome, i < j → r.out.outcomes[i]? = some outcome → outcome.isFailure = true →
    j ∉ r.effects

/-- What holds in the loop before the event at `index`. -/
structure Loop (index : Nat) (p : Progress) : Prop where
  outcomes : p.out.outcomes.length = index
  changed : p.out.changed.length = index
  slots : ∀ entry ∈ p.run, entry.slot < index
  effects : ∀ e ∈ p.effects, e < index
  before : ∀ first, p.run.head? = some first → ∀ e ∈ p.effects, e < first.slot

theorem length_settleChanged (changed : List Bool) (entries : List RunEntry) (uris : List String) :
    (settleChanged changed entries uris).length = changed.length := by
  induction entries generalizing changed uris with
  | nil => rfl
  | cons entry earlier ih =>
    unfold settleChanged
    split
    · rw [ih, List.length_set]
    · exact ih ..

section Steps

variable {routes : Routes} {calls : Calls} {total index : Nat} {p : Progress}

theorem flushThen_cases {Q : Report → Prop} {next : Progress → Report} (loop : Loop index p)
    (go : ∀ p', Loop index p' → p'.run = [] → p'.out.outcomes = p.out.outcomes → Q (next p'))
    (fail : ∀ slot outcome error, slot < index → (∀ e ∈ p.effects, e < slot) →
      Q ⟨fillFailed ⟨p.out.outcomes.take slot, p.out.changed.take slot⟩ total outcome, some error,
        p.effects⟩) : Q (flushThen calls total p next) := by
  unfold flushThen writeRun
  cases run : p.run with
  | nil => exact go p loop run rfl
  | cons first rest =>
    have slots : ∀ slot ∈ (first :: rest).map (·.slot), slot < index := by
      intro slot mem
      obtain ⟨entry, held, rfl⟩ := List.mem_map.mp mem
      exact loop.slots entry (run ▸ held)
    simp only
    cases calls.write ((first :: rest).map (·.slot)) with
    | ok uris =>
      refine go _ ⟨loop.outcomes, ?_, by simp, ?_, by simp⟩ rfl rfl
      · rw [length_settleChanged, loop.changed]
      · intro e mem
        rcases List.mem_append.mp mem with old | new
        · exact loop.effects e old
        · exact slots e new
    | error failure =>
      exact fail first.slot failure.1 failure.2 (slots _ (by simp))
        (loop.before first (by simp [run]))

theorem Loop.start : Loop 0 {} := by
  constructor <;> simp

theorem Loop.push (loop : Loop index p) (outcome : IngestOutcome) (changed : Bool) :
    Loop (index + 1) (p.push outcome changed) where
  outcomes := by simp [Progress.push, loop.outcomes]
  changed := by simp [Progress.push, loop.changed]
  slots entry mem := Nat.lt_succ_of_lt (loop.slots entry mem)
  effects e mem := Nat.lt_succ_of_lt (loop.effects e mem)
  before := loop.before

theorem Loop.join (loop : Loop index p) (ev : RecordEvent) (body : String) :
    Loop (index + 1) (p.join ev body) where
  outcomes := (loop.push _ _).outcomes
  changed := (loop.push _ _).changed
  slots entry mem := by
    rcases List.mem_append.mp mem with old | new
    · exact Nat.lt_succ_of_lt (loop.slots entry old)
    · rw [List.mem_singleton.mp new]
      simp [loop.outcomes]
  effects := (loop.push .matched false).effects
  before first head e mem := by
    cases run : p.run with
    | nil =>
      simp only [Progress.join, run, List.nil_append, List.head?_cons, Option.some.injEq] at head
      rw [← head, loop.outcomes]
      exact loop.effects e mem
    | cons earliest rest =>
      refine loop.before first ?_ e mem
      simpa [Progress.join, run] using head

theorem Loop.apply (loop : Loop index p) (empty : p.run = []) (applied : Applied) :
    Loop (index + 1) (p.apply index applied) where
  outcomes := (loop.push _ _).outcomes
  changed := (loop.push _ _).changed
  slots := (loop.push .matched false).slots
  effects e mem := by
    rcases List.mem_append.mp mem with old | new
    · exact Nat.lt_succ_of_lt (loop.effects e old)
    · rw [List.mem_singleton.mp new]
      exact Nat.lt_succ_self _
  before first head := by
    simp [Progress.apply, Progress.push, empty] at head

def aloneOutcome (routes : Routes) (calls : Calls) (index : Nat) (event : SourceEvent) :
    IngestOutcome :=
  (decided routes event).getD (calls.apply index).outcome

theorem applyIn_outcomes (event : SourceEvent) :
    (p.applyIn routes calls index event).out.outcomes =
      p.out.outcomes ++ [aloneOutcome routes calls index event] := by
  unfold Progress.applyIn aloneOutcome
  cases decided routes event <;> rfl

theorem applyIn_run (event : SourceEvent) : (p.applyIn routes calls index event).run = p.run := by
  unfold Progress.applyIn
  cases decided routes event <;> rfl

theorem Loop.applyIn (loop : Loop index p) (empty : p.run = []) (event : SourceEvent) :
    Loop (index + 1) (p.applyIn routes calls index event) := by
  unfold Progress.applyIn
  cases decided routes event with
  | none => exact loop.apply empty _
  | some outcome => exact loop.push outcome false

theorem length_fillFailed {slot : Nat} (outcome : IngestOutcome) (loop : Loop index p)
    (within : slot < index) (le : index ≤ total) :
    let out : BatchOutcome := ⟨p.out.outcomes.take slot, p.out.changed.take slot⟩
    (fillFailed out total outcome).outcomes.length = total ∧
      (fillFailed out total outcome).changed.length = total := by
  have outcomes := loop.outcomes
  have changed := loop.changed
  simp only [fillFailed, List.length_append, List.length_take, List.length_replicate]
  omega

theorem stopsAtFailure_fillFailed {slot : Nat} {outcome : IngestOutcome} {error : String}
    (loop : Loop index p) (within : slot < index) (le : index ≤ total)
    (before : ∀ e ∈ p.effects, e < slot)
    (fine : ∀ o ∈ p.out.outcomes, o.isFailure = false) :
    StopsAtFailure total
      ⟨fillFailed ⟨p.out.outcomes.take slot, p.out.changed.take slot⟩ total outcome, some error,
        p.effects⟩ := by
  obtain ⟨outcomes, changed⟩ := length_fillFailed outcome loop within le
  have length := loop.outcomes
  have filled (i : Nat) (past : slot ≤ i) (lt : i < total) :
      (fillFailed ⟨p.out.outcomes.take slot, p.out.changed.take slot⟩ total outcome).outcomes[i]? =
        some outcome := by
    simp only [fillFailed]
    rw [List.getElem?_append_right (by simp; omega), List.getElem?_replicate, if_pos]
    simp
    omega
  have late (i : Nat) (found : IngestOutcome)
      (held : (fillFailed ⟨p.out.outcomes.take slot, p.out.changed.take slot⟩ total
        outcome).outcomes[i]? = some found) (fails : found.isFailure = true) : slot ≤ i := by
    rcases Nat.lt_or_ge i slot with early | past
    · simp only [fillFailed] at held
      rw [List.getElem?_append_left (by simp; omega), List.getElem?_take_of_lt (by omega),
        List.getElem?_take_of_lt early] at held
      rw [fine found (List.mem_of_getElem? held)] at fails
      cases fails
    · exact past
  refine ⟨outcomes, changed, fun i j found lt within held fails => ?_,
    fun i j found lt held fails mem => ?_⟩
  · have past := late i found held fails
    rw [filled i past (by omega)] at held
    rw [filled j (by omega) within, held]
  · have past := late i found held fails
    have := before j mem
    omega

theorem stopsAtFailure_of_fine {error : Option String} (loop : Loop total p)
    (fine : ∀ o ∈ p.out.outcomes.dropLast, o.isFailure = false) :
    StopsAtFailure total ⟨p.out, error, p.effects⟩ := by
  have length := loop.outcomes
  have last (i : Nat) (outcome : IngestOutcome) (held : p.out.outcomes[i]? = some outcome)
      (fails : outcome.isFailure = true) : total ≤ i + 1 := by
    rcases Nat.lt_or_ge (i + 1) total with early | past
    · have mem : outcome ∈ p.out.outcomes.dropLast := by
        refine List.mem_of_getElem? (i := i) ?_
        rw [List.getElem?_dropLast, if_pos (by omega), held]
      rw [fine outcome mem] at fails
      cases fails
    · exact past
  refine ⟨loop.outcomes, loop.changed, fun i j outcome lt within held fails => ?_,
    fun i j outcome lt held fails mem => ?_⟩
  · have := last i outcome held fails
    omega
  · have := last i outcome held fails
    have := loop.effects j mem
    omega

/-- None of the events from `index` on fails on its own, but for the last. -/
def NoneFailsAlone (routes : Routes) (calls : Calls) (index : Nat) (rest : List SourceEvent) :
    Prop :=
  ∀ i event, rest[i]? = some event → i + 1 < rest.length → runRecord routes event = none →
    (aloneOutcome routes calls (index + i) event).isFailure = false

theorem NoneFailsAlone.tail {event : SourceEvent} {rest : List SourceEvent}
    (none : NoneFailsAlone routes calls index (event :: rest)) :
    NoneFailsAlone routes calls (index + 1) rest := by
  intro i later held within alone
  have := none (i + 1) later held (by simpa using within) alone
  rwa [show index + (i + 1) = index + 1 + i by omega] at this

/-- What the loop comes to: one outcome per event, and a stop at the first failure if nothing
has failed yet and nothing but the last event is going to on its own. -/
structure Settles (total : Nat) (fine : Prop) (r : Report) : Prop where
  outcomes : r.out.outcomes.length = total
  changed : r.out.changed.length = total
  stops : fine → StopsAtFailure total r

theorem settles_fillFailed {slot : Nat} {outcome : IngestOutcome} {error : String} {fine : Prop}
    (loop : Loop index p) (le : index ≤ total) (within : slot < index)
    (before : ∀ e ∈ p.effects, e < slot)
    (ok : fine → ∀ o ∈ p.out.outcomes, o.isFailure = false) :
    Settles total fine
      ⟨fillFailed ⟨p.out.outcomes.take slot, p.out.changed.take slot⟩ total outcome, some error,
        p.effects⟩ := by
  obtain ⟨outcomes, changed⟩ := length_fillFailed outcome loop within le
  exact ⟨outcomes, changed, fun h => stopsAtFailure_fillFailed loop within le before (ok h)⟩

theorem fine_push {outcome : IngestOutcome} {outcomes : List IngestOutcome}
    (fine : ∀ o ∈ outcomes, o.isFailure = false) (ok : outcome.isFailure = false) :
    ∀ o ∈ outcomes ++ [outcome], o.isFailure = false := by
  intro o mem
  rcases List.mem_append.mp mem with old | new
  · exact fine o old
  · rw [List.mem_singleton.mp new]
    exact ok

theorem applyFrom_settles {rest : List SourceEvent} (loop : Loop index p)
    (count : index + rest.length = total) :
    Settles total
      ((∀ o ∈ p.out.outcomes, o.isFailure = false) ∧ NoneFailsAlone routes calls index rest)
      (applyFrom routes calls total rest index p) := by
  induction rest generalizing index p with
  | nil =>
    obtain rfl : index = total := count
    refine flushThen_cases loop (fun p' loop' _ same => ?_) fun slot outcome error within before =>
      settles_fillFailed loop le_rfl within before And.left
    refine ⟨loop'.outcomes, loop'.changed, fun fine => stopsAtFailure_of_fine loop' ?_⟩
    intro o mem
    exact fine.1 o (same ▸ List.dropLast_subset _ mem)
  | cons event rest ih =>
    have le : index ≤ total := by omega
    have left : index + 1 + rest.length = total := by simp at count; omega
    unfold applyFrom
    cases joined : runRecord routes event with
    | some record =>
      have goes {p' : Progress} {outcome : IngestOutcome} (loop' : Loop (index + 1) p')
          (pushed : p'.out.outcomes = p.out.outcomes ++ [outcome])
          (ok : outcome.isFailure = false) :
          Settles total
            ((∀ o ∈ p.out.outcomes, o.isFailure = false) ∧
              NoneFailsAlone routes calls index (event :: rest))
            (applyFrom routes calls total rest (index + 1) p') := by
        obtain ⟨outcomes, changed, stops⟩ := ih loop' left
        exact ⟨outcomes, changed, fun fine =>
          stops ⟨by rw [pushed]; exact fine_push fine.1 ok, fine.2.tail⟩⟩
      simp only
      split
      · split
        · exact flushThen_cases loop
            (fun p' loop' _ same => goes (loop'.join _ _) (congrArg (· ++ _) same) rfl)
            fun slot outcome error within before =>
              settles_fillFailed loop le within before And.left
        · exact goes (loop.join _ _) rfl rfl
      · exact goes (loop.push _ _) rfl rfl
      · exact goes (loop.push _ _) rfl rfl
    | none =>
      refine flushThen_cases loop (fun p' loop' empty same => ?_)
        fun slot outcome error within before => settles_fillFailed loop le within before And.left
      have loop'' : Loop (index + 1) (p'.applyIn routes calls index event) :=
        loop'.applyIn empty event
      obtain ⟨outcomes, changed, stops⟩ := ih loop'' left
      refine ⟨outcomes, changed, fun fine => ?_⟩
      have earlier : ∀ o ∈ p'.out.outcomes, o.isFailure = false := same ▸ fine.1
      cases rest with
      | nil =>
        -- The batch ends with an event of its own, whatever it came to.
        obtain rfl : index + 1 = total := left
        have ends : applyFrom routes calls (index + 1) [] (index + 1)
            (p'.applyIn routes calls index event) =
              ⟨(p'.applyIn routes calls index event).out, none,
                (p'.applyIn routes calls index event).effects⟩ := by
          simp [applyFrom, flushThen, writeRun, applyIn_run, empty]
        rw [ends]
        refine stopsAtFailure_of_fine loop'' ?_
        simpa [applyIn_outcomes] using earlier
      | cons next rest =>
        have ok := fine.2 0 event rfl (by simp) joined
        refine stops ⟨?_, fine.2.tail⟩
        rw [applyIn_outcomes]
        exact fine_push earlier ok

theorem applyEach_concat (routes : Routes) (calls : Calls) (events : List SourceEvent)
    (event : SourceEvent) : applyEach routes calls (events ++ [event]) =
      (applyEach routes calls events).applyIn routes calls events.length event := by
  simp [applyEach, List.zipIdx_append]

theorem applyEach_loop (routes : Routes) (calls : Calls) (events : List SourceEvent) :
    Loop events.length (applyEach routes calls events) ∧
      (applyEach routes calls events).run = [] := by
  induction events using List.reverseRecOn with
  | nil => exact ⟨.start, rfl⟩
  | append_singleton events event ih =>
    rw [applyEach_concat, List.length_append, applyIn_run]
    exact ⟨ih.1.applyIn ih.2 event, ih.2⟩

theorem applyEach_outcomes (routes : Routes) (calls : Calls) (events : List SourceEvent) :
    (applyEach routes calls events).out.outcomes = events.mapIdx (aloneOutcome routes calls) := by
  induction events using List.reverseRecOn with
  | nil => rfl
  | append_singleton events event ih =>
    rw [applyEach_concat, applyIn_outcomes, ih, List.mapIdx_concat]

theorem runRecord_of_isClaimed {event : SourceEvent} (claimed : isClaimed routes event = true) :
    runRecord routes event = none := by
  cases event with
  | record ev =>
    obtain ⟨most, route⟩ := Option.isSome_iff_exists.mp claimed
    simp [runRecord, route]
  | _ => rfl

theorem applyClaimed_settles {events : List SourceEvent}
    (claimed : events.all (isClaimed routes) = true) :
    Settles events.length (NoneFailsAlone routes calls 0 events)
      (applyClaimed routes calls events) := by
  have loop := (applyEach_loop routes calls events).1
  rw [applyClaimed]
  refine ⟨loop.outcomes, loop.changed, fun fine => stopsAtFailure_of_fine loop ?_⟩
  intro o mem
  obtain ⟨i, held⟩ := List.mem_iff_getElem?.mp mem
  rw [applyEach_outcomes, List.getElem?_dropLast] at held
  simp only [List.length_mapIdx] at held
  split at held
  · rename_i within
    have lt : i < events.length := by omega
    rw [List.getElem?_mapIdx, List.getElem?_eq_getElem lt, Option.map_some] at held
    obtain rfl := Option.some.inj held
    have alone := runRecord_of_isClaimed
      (List.all_eq_true.mp claimed events[i] (List.getElem_mem lt))
    simpa using fine i events[i] (List.getElem?_eq_getElem lt) (by omega) alone
  · cases held

theorem applyEvents_settles {events : List SourceEvent} :
    Settles events.length (NoneFailsAlone routes calls 0 events)
      (applyEvents routes calls events) := by
  unfold applyEvents
  split
  · rename_i whole
    exact applyClaimed_settles whole.2
  · obtain ⟨outcomes, changed, stops⟩ := applyFrom_settles .start (Nat.zero_add events.length)
    exact ⟨outcomes, changed, fun fine => stops ⟨by simp, fine⟩⟩

end Steps

/-! ## Batches whose hooks skip every record -/

def skipping (apply : Nat → Applied) : Calls where
  hook _ := .skip
  apply := apply
  write _ := .ok []

def unhookedOutcome (routes : Routes) (apply : Nat → Applied) (index : Nat) (event : SourceEvent) :
    IngestOutcome :=
  if (runRecord routes event).isSome then .skipped
  else aloneOutcome routes (skipping apply) index event

theorem applyFrom_skipping {routes : Routes} {apply : Nat → Applied} {total index : Nat}
    {p : Progress} {rest : List SourceEvent} (empty : p.run = []) :
    (applyFrom routes (skipping apply) total rest index p).out.outcomes =
      p.out.outcomes ++ rest.mapIdx fun i => unhookedOutcome routes apply (index + i) := by
  induction rest generalizing index p with
  | nil => simp [applyFrom, flushThen, writeRun, empty]
  | cons event rest ih =>
    have shift : (fun i => unhookedOutcome routes apply (index + (i + 1))) =
        fun i => unhookedOutcome routes apply (index + 1 + i) := by
      funext i
      rw [show index + (i + 1) = index + 1 + i by omega]
    unfold applyFrom
    rw [List.mapIdx_cons, shift]
    cases joined : runRecord routes event with
    | some record =>
      change (applyFrom routes (skipping apply) total rest (index + 1)
        (p.push .skipped false)).out.outcomes = _
      rw [ih (show (p.push .skipped false).run = [] from empty)]
      simp [Progress.push, unhookedOutcome, joined]
    | none =>
      simp only [flushThen, writeRun, empty]
      rw [ih ((applyIn_run event).trans empty), applyIn_outcomes]
      simp [unhookedOutcome, joined]

theorem applyEvents_skipping (routes : Routes) (apply : Nat → Applied) (events : List SourceEvent) :
    (applyEvents routes (skipping apply) events).out.outcomes =
      events.mapIdx (unhookedOutcome routes apply) := by
  unfold applyEvents
  split
  · rename_i whole
    rw [applyClaimed, applyEach_outcomes]
    refine List.ext_getElem (by simp) fun i lt _ => ?_
    have lt : i < events.length := by simpa using lt
    have alone := runRecord_of_isClaimed
      (List.all_eq_true.mp whole.2 events[i] (List.getElem_mem lt))
    simp [unhookedOutcome, alone]
  · simp [applyFrom_skipping]

/-- For every batch: there is one outcome per event; the batch stops at its first failure if
no event but the last fails on its own; and it does so whatever fails just in case every event
but the last joins a run or is answered without a call that can fail. -/
theorem applyBatch_stopsAtFailure (routes : Routes) (events : List SourceEvent) :
    (∀ calls, (applyEvents routes calls events).out.outcomes.length = events.length) ∧
      (∀ calls, NoneFailsAlone routes calls 0 events →
        StopsAtFailure events.length (applyEvents routes calls events)) ∧
      ((∀ calls, StopsAtFailure events.length (applyEvents routes calls events)) ↔
        ∀ i event, events[i]? = some event → i + 1 < events.length →
          (runRecord routes event).isSome ∨ (decided routes event).isSome) := by
  refine ⟨fun calls => applyEvents_settles.outcomes, fun calls => applyEvents_settles.stops,
    fun stops i event held within => ?_, fun joins calls => applyEvents_settles.stops ?_⟩
  · by_contra neither
    simp only [not_or, Option.not_isSome_iff_eq_none] at neither
    obtain ⟨joined, undecided⟩ := neither
    -- Only this event fails; the next one is skipped, decided or applied.
    let apply (j : Nat) : Applied := if j = i then ⟨.errored, false⟩ else ⟨.matched, false⟩
    have failed : (events.mapIdx (unhookedOutcome routes apply))[i]? = some .errored := by
      simp [List.getElem?_mapIdx, held, unhookedOutcome, aloneOutcome, joined, undecided, skipping,
        apply]
    have next := (stops (skipping apply)).reports i (i + 1) .errored (by omega) within
      (by rw [applyEvents_skipping, failed]) rfl
    rw [applyEvents_skipping, List.getElem?_mapIdx, List.getElem?_eq_getElem within,
      Option.map_some] at next
    have same := Option.some.inj next
    simp only [unhookedOutcome, aloneOutcome] at same
    split at same
    · cases same
    · cases answer : decided routes events[i + 1] with
      | none => simp [answer, skipping, apply] at same
      | some outcome =>
        have fine := not_isFailure_of_decided answer
        rw [answer, Option.getD_some] at same
        rw [same] at fine
        cases fine
  · intro i event held within alone
    rcases joins i event held within with joined | answered
    · rw [alone] at joined
      cases joined
    · obtain ⟨outcome, answer⟩ := Option.isSome_iff_exists.mp answered
      rw [aloneOutcome, answer]
      exact not_isFailure_of_decided answer

/-- A delete that fails, then a create that is written: the create takes effect, and its
outcome does not report the failure. -/
theorem applyBatch_goesOn :
    let routes : Routes :=
      ⟨fun _ => true, fun _ => none, 4, fun _ => none, fun _ _ => true, ["app.note"]⟩
    let delete : RecordEvent :=
      ⟨⟨"did:plc:a", "app.note", "1"⟩, .delete, none, some "3kaaa", none, .live, false⟩
    let create : RecordEvent :=
      ⟨⟨"did:plc:a", "app.note", "2"⟩, .create, some "bafy", some "3kaab", some "note", .live,
        false⟩
    let calls : Calls :=
      ⟨fun _ => .store "note", fun _ => ⟨.errored, false⟩, fun _ => .ok [create.key.uri]⟩
    let report := applyEvents routes calls [.record delete, .record create]
    report.out.outcomes = [.errored, .matched] ∧ report.effects = [0, 1] ∧
      ¬ StopsAtFailure 2 report := by
  intro routes delete create calls report
  have outcomes : report.out.outcomes = [.errored, .matched] := by decide +kernel
  have effects : report.effects = [0, 1] := by decide +kernel
  refine ⟨outcomes, effects, fun stops => ?_⟩
  have untouched := stops.stops 0 1 .errored Nat.zero_lt_one (by rw [outcomes]; rfl) rfl
  rw [effects] at untouched
  simp at untouched

end HappyView.Ingest
