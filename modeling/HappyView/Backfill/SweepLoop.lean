import HappyView.Backfill.Replay
import HappyView.Error

/-!
# The loop over the pages of a plan

A sweep asks for page after page from its cursor on, up to the tip that the first page gave. How
far a page has planned is the archive's word: it may repeat itself or go back. A page that plans
no further than the cursor and not to the tip counts as stalled, and five of those in a row end
the sweep with an error.

The loop is modelled here with the machine's numbers, over any sequence of answers: a sequence
number of the archive is a `u64` that is cast to an `i64`. What becomes of the entries of a page
is part of the answers (`HappyView.Backfill.Replay` has the code for them).
-/

namespace HappyView.Backfill.SweepLoop

def asI64 (seq : UInt64) : Int := seq.toInt64.toInt

def asU64 (seq : Int) : UInt64 := UInt64.ofInt seq

structure Sweep where
  kind : SweepKind
  collections : List String
  dids : Option (List String)
  cursorSeq : Int
  tipSeq : Option Int := none
  done : Bool := false
  deriving DecidableEq

structure PlanRequest where
  kinds : List String
  collections : List String
  dids : List String
  afterSeq : UInt64
  beforeSeq : Option UInt64
  deriving DecidableEq

structure PlanEntry where
  name : String
  maxSeq : UInt64
  mode : PlanMode
  blocks : List (UInt32 × UInt32) := []
  deriving DecidableEq

structure PlanPage where
  plannedThroughSeq : UInt64
  sealedTipSeq : UInt64
  segments : List PlanEntry := []
  deriving DecidableEq

structure EntryReply where
  stop : Bool := false
  /-- What `entry` returns: the failed blocks are counted, everything else halts the job. -/
  folded : Except Halt Nat := .ok 0
  saved : Bool := true
  counted : Bool := true

structure Round where
  stop : Bool := false
  plan : PlanRequest → Except ArchiveError PlanPage
  sourceSet : Bool := true
  tipSaved : Bool := true
  entry : Nat → EntryReply := fun _ => {}
  pageSaved : Bool := true

def Sweep.request (sweep : Sweep) : PlanRequest where
  kinds := match sweep.kind with
    | .commits => ["commit"]
    | .markers => ["account", "sync"]
  collections := sweep.collections
  dids := sweep.dids.getD []
  afterSeq := asU64 sweep.cursorSeq
  beforeSeq := sweep.tipSeq.map asU64

def orHalt (well : Bool) (halt : Halt) : Except Halt Unit :=
  if well then .ok () else .error halt

def planHalt (hasKey firstPage : Bool) : ArchiveError → Halt
  | .noArchive => if firstPage then .noArchive .noArchive else .failed "planSnapshot failed"
  | .unreachable => if firstPage then .noArchive .unreachable else .failed "planSnapshot failed"
  | .unauthorized =>
    if hasKey then .failed "the jetstream refused the replay key"
    else if firstPage then .noArchive .unauthorized else .failed "planSnapshot failed"
  | .other message => .failed ("planSnapshot failed: " ++ message)

def Sweep.tip (sweep : Sweep) (page : PlanPage) : Int := sweep.tipSeq.getD (asI64 page.sealedTipSeq)

def entries (tip : Int) (replies : Nat → EntryReply) :
    Nat → List PlanEntry → Sweep → Except Halt Sweep
  | _, [], sweep => .ok sweep
  | i, entry :: rest, sweep => do
    orHalt (!(replies i).stop) .stopped
    let _ ← (replies i).folded
    let sweep := { sweep with cursorSeq := max sweep.cursorSeq (min (asI64 entry.maxSeq) tip) }
    orHalt (replies i).saved bookkeepingFailed
    orHalt (replies i).counted bookkeepingFailed
    entries tip replies (i + 1) rest sweep

def stalls (through pageStart tip : Int) : Bool := through ≤ pageStart && through < tip

def stalledAt (through : Int) : Halt :=
  .failed ("the archive plan stopped advancing at seq " ++ toString through)

def afterPage (through pageStart tip : Int) (stalled : Nat) : Except Halt Nat :=
  if stalls through pageStart tip then
    if stalled + 1 ≥ stalledPages then .error (stalledAt through) else .ok (stalled + 1)
  else .ok 0

def page (hasKey probing : Bool) (round : Round) (stalled : Nat) (sweep : Sweep) :
    Except Halt (Nat × Sweep) := do
  orHalt (!round.stop) .stopped
  let page ← (round.plan sweep.request).mapError (planHalt hasKey sweep.tipSeq.isNone)
  orHalt (!(probing && sweep.tipSeq.isNone) || round.sourceSet) bookkeepingFailed
  let tip := sweep.tip page
  orHalt round.tipSaved bookkeepingFailed
  let swept ← entries tip round.entry 0 page.segments { sweep with tipSeq := some tip }
  let through := asI64 page.plannedThroughSeq
  let stalled ← afterPage through sweep.cursorSeq tip stalled
  let finished := { swept with
    cursorSeq := max swept.cursorSeq (min through tip)
    done := swept.done || through ≥ tip }
  orHalt round.pageSaved bookkeepingFailed
  return (stalled, finished)

structure Visit where
  round : Nat
  sweep : Sweep

/-- The loop for up to `fuel` rounds from the round `n` on: the rounds it went through and how
it ended, or `none` when it has not ended by then. -/
def sweepPages (hasKey probing : Bool) (rounds : Nat → Round) :
    Nat → Nat → Nat → Sweep → Option (List Visit × Except Halt Sweep)
  | 0, _, _, _ => none
  | fuel + 1, n, stalled, sweep =>
    match page hasKey probing (rounds n) stalled sweep with
    | .error halt => some ([⟨n, sweep⟩], .error halt)
    | .ok (stalled, next) =>
      if next.done then some ([⟨n, sweep⟩], .ok next)
      else
        (sweepPages hasKey probing rounds fuel (n + 1) stalled next).map fun (visits, result) =>
          (⟨n, sweep⟩ :: visits, result)

def Stalls (rounds : Nat → Round) (visit : Visit) : Prop :=
  ∃ page, (rounds visit.round).plan visit.sweep.request = .ok page ∧
    stalls (asI64 page.plannedThroughSeq) visit.sweep.cursorSeq (visit.sweep.tip page) = true

/-- The archive answers every request of the round with a page, and nothing else goes wrong. -/
structure Round.Answers (round : Round) : Prop where
  stop : round.stop = false
  plan : ∀ request, ∃ page, round.plan request = .ok page
  sourceSet : round.sourceSet = true
  tipSaved : round.tipSaved = true
  entry_stop : ∀ i, (round.entry i).stop = false
  entry_folded : ∀ i, ∃ failed, (round.entry i).folded = .ok failed
  entry_saved : ∀ i, (round.entry i).saved = true
  entry_counted : ∀ i, (round.entry i).counted = true
  pageSaved : round.pageSaved = true

/-! ## One page -/

section

variable {hasKey probing : Bool} {round : Round} {rounds : Nat → Round} {stalled stalled' : Nat}
  {sweep next : Sweep} {tip through pageStart : Int} {replies : Nat → EntryReply}

@[simp] theorem orHalt_eq_ok {well : Bool} {halt : Halt} {u : Unit} :
    orHalt well halt = .ok u ↔ well = true := by
  cases well <;> simp [orHalt]

theorem entries_spec {segments : List PlanEntry} {i : Nat}
    (ran : entries tip replies i segments sweep = .ok next) :
    next.tipSeq = sweep.tipSeq ∧ next.done = sweep.done ∧
      sweep.cursorSeq ≤ next.cursorSeq := by
  induction segments generalizing i sweep with
  | nil =>
    cases ran
    simp
  | cons entry rest ih =>
    simp only [entries, bind_eq_ok, orHalt_eq_ok] at ran
    obtain ⟨-, -, failed, -, -, -, -, -, ran⟩ := ran
    obtain ⟨sameTip, sameDone, least⟩ := ih ran
    exact ⟨sameTip, sameDone, (le_max_left _ _).trans least⟩

theorem exists_entries (answers : round.Answers) (tip : Int) (i : Nat) (segments : List PlanEntry)
    (sweep : Sweep) : ∃ next, entries tip round.entry i segments sweep = .ok next := by
  induction segments generalizing i sweep with
  | nil => exact ⟨sweep, rfl⟩
  | cons entry rest ih =>
    obtain ⟨failed, folded⟩ := answers.entry_folded i
    obtain ⟨next, ran⟩ := ih (i + 1)
      { sweep with cursorSeq := max sweep.cursorSeq (min (asI64 entry.maxSeq) tip) }
    refine ⟨next, ?_⟩
    rw [entries, answers.entry_stop, answers.entry_saved, answers.entry_counted, folded]
    exact ran

theorem page_eq_ok (ran : page hasKey probing round stalled sweep = .ok (stalled', next)) :
    ∃ answer, round.plan sweep.request = .ok answer ∧
      next.tipSeq = some (sweep.tip answer) ∧
      next.done = (sweep.done || sweep.tip answer ≤ asI64 answer.plannedThroughSeq) ∧
      sweep.cursorSeq ≤ next.cursorSeq ∧
      min (asI64 answer.plannedThroughSeq) (sweep.tip answer) ≤ next.cursorSeq ∧
      afterPage (asI64 answer.plannedThroughSeq) sweep.cursorSeq (sweep.tip answer) stalled =
        .ok stalled' := by
  simp only [page, bind_eq_ok, orHalt_eq_ok, mapError_eq_ok] at ran
  obtain ⟨-, -, answer, planned, -, -, -, -, swept, folded, counter, counted, -, -, returned⟩ := ran
  cases returned
  obtain ⟨sameTip, sameDone, least⟩ := entries_spec folded
  refine ⟨answer, planned, sameTip, ?_, ?_, ?_, counted⟩
  · simp [sameDone]
  · exact least.trans (le_max_left _ _)
  · simp

theorem afterPage_eq_ok :
    afterPage through pageStart tip stalled = .ok stalled' ↔
    (stalls through pageStart tip = true ∧ stalled + 1 < stalledPages ∧ stalled' = stalled + 1) ∨
      (stalls through pageStart tip = false ∧ stalled' = 0) := by
  unfold afterPage
  cases stalls through pageStart tip <;> grind

theorem page_eq_error (answers : round.Answers) {halt : Halt}
    (ran : page hasKey probing round stalled sweep = .error halt) :
    ∃ answer, round.plan sweep.request = .ok answer ∧
      stalls (asI64 answer.plannedThroughSeq) sweep.cursorSeq (sweep.tip answer) = true ∧
      stalledPages ≤ stalled + 1 ∧ halt = stalledAt (asI64 answer.plannedThroughSeq) := by
  obtain ⟨answer, planned⟩ := answers.plan sweep.request
  obtain ⟨swept, folded⟩ := exists_entries answers (sweep.tip answer) 0 answer.segments
    { sweep with tipSeq := some (sweep.tip answer) }
  have counted : afterPage (asI64 answer.plannedThroughSeq) sweep.cursorSeq (sweep.tip answer)
      stalled = .error halt := by
    simp only [page, planned, answers.stop, answers.sourceSet, answers.tipSaved,
      answers.pageSaved, orHalt, Except.mapError, bind, Except.bind, Bool.not_false, Bool.or_true,
      if_true, folded] at ran
    split at ran
    · cases ran
      assumption
    · cases ran
  refine ⟨answer, planned, ?_⟩
  unfold afterPage at counted
  grind

/-! ## The measure -/

/-- Pages that may still come: up to five for each step that the cursor has to go, and the
stalled ones until the error. -/
def remaining (tip : Int) (stalled : Nat) (sweep : Sweep) : Nat :=
  stalledPages * (tip - sweep.cursorSeq).toNat + (stalledPages - stalled)

theorem page_remaining (ran : page hasKey probing round stalled sweep = .ok (stalled', next))
    (known : sweep.tipSeq = some tip) (few : stalled < stalledPages) (undone : next.done = false) :
    next.tipSeq = some tip ∧ stalled' < stalledPages ∧
      remaining tip stalled' next < remaining tip stalled sweep := by
  obtain ⟨answer, -, sameTip, done, least, planned, counted⟩ := page_eq_ok ran
  have tipEq : sweep.tip answer = tip := by simp [Sweep.tip, known]
  rw [tipEq] at sameTip done planned counted
  refine ⟨sameTip, ?_⟩
  unfold remaining
  simp only [stalledPages] at few ⊢
  rcases afterPage_eq_ok.mp counted with ⟨-, fewer, rfl⟩ | ⟨moving, rfl⟩
  · simp only [stalledPages] at fewer
    omega
  · have short : asI64 answer.plannedThroughSeq < tip := by simp_all
    have further : sweep.cursorSeq < asI64 answer.plannedThroughSeq := by
      simpa [stalls, short] using moving
    omega

/-! ## The loop -/

theorem exists_sweepPages_of_page {n : Nat}
    (later : ∀ stalled' next, page hasKey probing (rounds n) stalled sweep = .ok (stalled', next) →
      next.done = false → ∃ fuel visits result,
        sweepPages hasKey probing rounds fuel (n + 1) stalled' next = some (visits, result)) :
    ∃ fuel visits result,
      sweepPages hasKey probing rounds fuel n stalled sweep = some (visits, result) := by
  cases ran : page hasKey probing (rounds n) stalled sweep with
  | error halt => exact ⟨1, [⟨n, sweep⟩], .error halt, by rw [sweepPages, ran]⟩
  | ok after =>
    obtain ⟨stalled', next⟩ := after
    cases done : next.done with
    | true =>
      refine ⟨1, [⟨n, sweep⟩], .ok next, ?_⟩
      rw [sweepPages, ran]
      simp [done]
    | false =>
      obtain ⟨fuel, visits, result, rest⟩ := later stalled' next ran done
      refine ⟨fuel + 1, ⟨n, sweep⟩ :: visits, result, ?_⟩
      rw [sweepPages, ran]
      simp [done, rest]

theorem exists_sweepPages (rounds : Nat → Round) (known : sweep.tipSeq = some tip)
    (few : stalled < stalledPages) (n : Nat) :
    ∃ fuel visits result,
      sweepPages hasKey probing rounds fuel n stalled sweep = some (visits, result) := by
  induction left : remaining tip stalled sweep using Nat.strong_induction_on
    generalizing n stalled sweep with
  | _ left ih =>
    refine exists_sweepPages_of_page fun stalled' next ran undone => ?_
    obtain ⟨sameTip, fewer, less⟩ := page_remaining ran known few undone
    exact ih _ (left ▸ less) sameTip fewer (n + 1) rfl

theorem sweepPages_cases {fuel n : Nat} {visits : List Visit} {result : Except Halt Sweep}
    (ran : sweepPages hasKey probing rounds (fuel + 1) n stalled sweep = some (visits, result)) :
    (∃ halt, page hasKey probing (rounds n) stalled sweep = .error halt ∧
      visits = [⟨n, sweep⟩] ∧ result = .error halt) ∨
    (∃ stalled' next, page hasKey probing (rounds n) stalled sweep = .ok (stalled', next) ∧
      next.done = true ∧ visits = [⟨n, sweep⟩] ∧ result = .ok next) ∨
    ∃ stalled' next rest, page hasKey probing (rounds n) stalled sweep = .ok (stalled', next) ∧
      next.done = false ∧ visits = ⟨n, sweep⟩ :: rest ∧
      sweepPages hasKey probing rounds fuel (n + 1) stalled' next = some (rest, result) := by
  rw [sweepPages] at ran
  split at ran
  · rename_i halt halted
    cases ran
    exact .inl ⟨halt, halted, rfl, rfl⟩
  · rename_i stalled' next went
    split at ran
    · rename_i done
      cases ran
      exact .inr (.inl ⟨stalled', next, went, done, rfl, rfl⟩)
    · rename_i undone
      obtain ⟨⟨rest, final⟩, later, both⟩ := Option.map_eq_some_iff.mp ran
      cases both
      exact .inr (.inr ⟨stalled', next, rest, went, by simpa using undone, rfl, later⟩)

theorem sweepPages_ok {fuel n : Nat} {visits : List Visit} {final : Sweep}
    (undone : sweep.done = false)
    (ran : sweepPages hasKey probing rounds fuel n stalled sweep = some (visits, .ok final)) :
    final.done = true ∧ ∃ tip, final.tipSeq = some tip ∧ tip ≤ final.cursorSeq := by
  induction fuel generalizing n stalled sweep visits with
  | zero => cases ran
  | succ fuel ih =>
    rcases sweepPages_cases ran with ⟨halt, -, -, impossible⟩ |
      ⟨stalled', next, went, done, -, last⟩ | ⟨stalled', next, rest, went, undone', -, later⟩
    · cases impossible
    · cases last
      obtain ⟨answer, -, sameTip, reached, -, planned, -⟩ := page_eq_ok went
      have through : sweep.tip answer ≤ asI64 answer.plannedThroughSeq := by simp_all
      exact ⟨done, _, sameTip, by omega⟩
    · exact ih undone' later

/-- When everything goes well but the archive's plans, a sweep that fails ends with five
stalled pages, those of before the loop included. -/
theorem sweepPages_error (answers : ∀ n, (rounds n).Answers) {fuel n : Nat} {visits : List Visit}
    {halt : Halt} (few : stalled < stalledPages)
    (ran : sweepPages hasKey probing rounds fuel n stalled sweep = some (visits, .error halt)) :
    ∃ earlier last, visits = earlier ++ last ∧ (∀ visit ∈ last, Stalls rounds visit) ∧
      (last.length = stalledPages ∨ earlier = [] ∧ last.length + stalled = stalledPages) ∧
      ∃ through, halt = stalledAt through := by
  induction fuel generalizing n stalled sweep visits with
  | zero => cases ran
  | succ fuel ih =>
    rcases sweepPages_cases ran with ⟨halt', halted, rfl, same⟩ |
      ⟨stalled', next, -, -, -, impossible⟩ | ⟨stalled', next, rest, went, undone, rfl, later⟩
    · cases same
      obtain ⟨answer, planned, stalling, last, rfl⟩ := page_eq_error (answers n) halted
      refine ⟨[], [⟨n, sweep⟩], rfl, ?_, .inr ⟨rfl, ?_⟩, _, rfl⟩
      · simpa using ⟨answer, planned, stalling⟩
      · simp only [List.length_singleton]
        omega
    · cases impossible
    · obtain ⟨answer, planned, -, -, -, -, counted⟩ := page_eq_ok went
      rcases afterPage_eq_ok.mp counted with ⟨stalling, fewer, rfl⟩ | ⟨-, rfl⟩
      · obtain ⟨earlier, last, rfl, all, enough, through⟩ := ih fewer later
        rcases enough with enough | ⟨rfl, enough⟩
        · exact ⟨⟨n, sweep⟩ :: earlier, last, rfl, all, .inl enough, through⟩
        · refine ⟨[], ⟨n, sweep⟩ :: last, rfl, ?_, .inr ⟨rfl, ?_⟩, through⟩
          · simpa using ⟨⟨answer, planned, stalling⟩, all⟩
          · rw [List.length_cons]
            omega
      · obtain ⟨earlier, last, rfl, all, enough, through⟩ := ih (by decide) later
        exact ⟨⟨n, sweep⟩ :: earlier, last, rfl, all, .inl (by omega), through⟩

theorem sweepPages_advances {fuel n : Nat} {visits : List Visit} {result : Except Halt Sweep}
    (ran : sweepPages hasKey probing rounds fuel n stalled sweep = some (visits, result)) :
    visits.head? = some ⟨n, sweep⟩ ∧ visits.IsChain fun visit later =>
      ¬ Stalls rounds visit → visit.sweep.cursorSeq < later.sweep.cursorSeq := by
  induction fuel generalizing n stalled sweep visits with
  | zero => cases ran
  | succ fuel ih =>
    rcases sweepPages_cases ran with ⟨halt, -, rfl, -⟩ | ⟨stalled', next, -, -, rfl, -⟩ |
      ⟨stalled', next, rest, went, undone, rfl, later⟩
    · exact ⟨rfl, .singleton _⟩
    · exact ⟨rfl, .singleton _⟩
    · obtain ⟨first, chain⟩ := ih later
      obtain ⟨visit, others, rfl⟩ := List.exists_cons_of_ne_nil
        (l := rest) (by rintro rfl; cases first)
      cases first
      refine ⟨rfl, chain.cons_cons ?_⟩
      intro moving
      obtain ⟨answer, planned, -, done, least, reached, -⟩ := page_eq_ok went
      have short : asI64 answer.plannedThroughSeq < sweep.tip answer := by simp_all
      have further : sweep.cursorSeq < asI64 answer.plannedThroughSeq := by
        by_contra back
        exact moving ⟨answer, planned, by simpa [stalls, short] using back⟩
      simp only
      omega

end

/-- A sweep ends, whatever the archive answers and whatever goes wrong. When only the archive
decides, it ends well, with the cursor at the tip or beyond, or with an error after five stalled
pages in a row; and after a page that did not stall, either the cursor is further on or the
sweep has ended. -/
theorem sweep_ends (hasKey probing : Bool) (rounds : Nat → Round) (sweep : Sweep)
    (undone : sweep.done = false) :
    ∃ fuel visits result,
      sweepPages hasKey probing rounds fuel 0 0 sweep = some (visits, result) ∧
      (∀ final, result = .ok final →
        final.done = true ∧ ∃ tip, final.tipSeq = some tip ∧ tip ≤ final.cursorSeq) ∧
      (∀ halt, result = .error halt → (∀ n, (rounds n).Answers) →
        (∃ through, halt = stalledAt through) ∧
        ∃ earlier last, visits = earlier ++ last ∧ last.length = stalledPages ∧
          ∀ visit ∈ last, Stalls rounds visit) ∧
      visits.IsChain fun visit later =>
        ¬ Stalls rounds visit → visit.sweep.cursorSeq < later.sweep.cursorSeq := by
  have ends : ∃ fuel visits result,
      sweepPages hasKey probing rounds fuel 0 0 sweep = some (visits, result) := by
    refine exists_sweepPages_of_page fun stalled next ran _ => ?_
    obtain ⟨answer, -, sameTip, -, -, -, counted⟩ := page_eq_ok ran
    have few : stalled < stalledPages := by
      rcases afterPage_eq_ok.mp counted with ⟨-, fewer, rfl⟩ | ⟨-, rfl⟩
      · exact fewer
      · decide
    exact exists_sweepPages rounds sameTip few 1
  obtain ⟨fuel, visits, result, ran⟩ := ends
  refine ⟨fuel, visits, result, ran, ?_, ?_, (sweepPages_advances ran).2⟩
  · rintro final rfl
    exact sweepPages_ok undone ran
  · rintro halt rfl answers
    obtain ⟨earlier, last, split, all, enough, through⟩ := sweepPages_error answers (by decide) ran
    exact ⟨through, earlier, last, split, by omega, all⟩

def answering (page : PlanPage) : Nat → Round := fun _ => { plan := fun _ => .ok page }

theorem answers_answering (page : PlanPage) (n : Nat) : (answering page n).Answers :=
  ⟨rfl, fun _ => ⟨page, rfl⟩, rfl, rfl, fun _ => rfl, fun _ => ⟨0, rfl⟩, fun _ => rfl, fun _ => rfl,
    rfl⟩

def freshSweep : Sweep where
  kind := .commits
  collections := ["app.example.post"]
  dids := none
  cursorSeq := 0

/-- Against an archive that plans to 5 of 10 every time, the sweep reaches the tip or fails
because of stalled pages. -/
theorem sweep_ends_halfway :
    freshSweep.done = false ∧ ∃ fuel visits result,
      sweepPages false false (answering ⟨5, 10, []⟩) fuel 0 0 freshSweep = some (visits, result) ∧
      ∀ halt, result = .error halt → ∃ through, halt = stalledAt through := by
  obtain ⟨fuel, visits, result, ran, -, failed, -⟩ :=
    sweep_ends false false (answering ⟨5, 10, []⟩) freshSweep rfl
  refine ⟨rfl, fuel, visits, result, ran, ?_⟩
  intro halt failure
  exact (failed halt failure (answers_answering ⟨5, 10, []⟩)).1

/-- In an empty archive the page of a fresh sweep does not stall, and the cursor stays where it
was. -/
theorem empty_archive_page :
    stalls (asI64 0) freshSweep.cursorSeq (freshSweep.tip ⟨0, 0, []⟩) = false ∧
      ∃ next, page false false (answering ⟨0, 0, []⟩ 0) 0 freshSweep = .ok (0, next) ∧
        next.cursorSeq = freshSweep.cursorSeq ∧ next.done = true :=
  ⟨by decide, { freshSweep with tipSeq := some 0, done := true }, rfl, rfl, rfl⟩

end HappyView.Backfill.SweepLoop
