import HappyView.Backfill.ReplayFold

/-!
# A sweep of a replay job

A sweep asks the archive for a plan from its cursor on, downloads and folds the entries of each
page, and saves its cursor past an entry once the entry's writes have committed and its failed
blocks are recorded. A run that stops or crashes is resumed from what the database holds.
-/

namespace HappyView.Backfill

open HappyView.Foundation HappyView.Ingest

def stalledPages : Nat := 5

/-- Failed blocks in a row after which the job stops. -/
def maxConsecutiveFailures : Nat := 16

abbrev Archive := String → List (List Row)

def PlanEntry.indexes (entry : PlanEntry) : List Nat :=
  entry.blocks.flatMap fun range => List.range' range.1 (range.2 + 1 - range.1)

def Sweep.rowKinds (sweep : Sweep) : RowKinds :=
  match sweep.kind with
  | .commits => .commits
  | .markers => .markers

def Sweep.request (sweep : Sweep) : PlanRequest where
  kinds := match sweep.kind with
    | .commits => ["commit"]
    | .markers => ["account", "sync"]
  collections := sweep.collections
  dids := sweep.dids.getD []
  afterSeq := sweep.cursorSeq
  beforeSeq := sweep.tipSeq

def Sweep.filter (sweep : Sweep) (tip : Nat) : RowFilter where
  kinds := sweep.rowKinds
  collections := sweep.collections
  dids := sweep.dids
  afterSeq := sweep.cursorSeq
  throughSeq := tip

section Replay

variable (decoders : Decoders) (archive : Archive) (jobId : String) (tracked : List String)
  (hasKey : Bool)

def bookkeepingFailed : Halt := .failed "replay bookkeeping failed"

/-- Save the sweep's position. A write that fails may have taken effect. -/
def save (sweep : Sweep) : Replay Unit := do
  let reply ← ask
  if reply.written || reply.applied then
    modify fun w => { w with db := { w.db with sweep := sweep } }
  if !reply.written then throw bookkeepingFailed

def countBytes : Replay Unit := do
  if !(← ask).written then throw bookkeepingFailed

def checkStop : Replay Unit := do
  if (← ask).stop then throw .stopped

/-- The page the archive plans from the sweep's cursor on. A first page that the archive does
not answer is no archive. -/
def plan (sweep : Sweep) : Replay PlanPage := do
  match (← ask).plan sweep.request with
  | .ok page => return page
  | .error .noArchive =>
    throw (if sweep.tipSeq.isNone then .noArchive .noArchive else .failed "planSnapshot failed")
  | .error .unreachable =>
    throw (if sweep.tipSeq.isNone then .noArchive .unreachable else .failed "planSnapshot failed")
  | .error .unauthorized =>
    throw (if hasKey then .failed "the jetstream refused the replay key"
      else if sweep.tipSeq.isNone then .noArchive .unauthorized else .failed "planSnapshot failed")
  | .error (.other message) => throw (.failed ("planSnapshot failed: " ++ message))

def blockFailed (segment : String) (block : Option Nat) (message : String) (outage : Bool) :
    Replay Unit := do
  modify fun w => { w with run := { w.run with
    entryFailures := w.run.entryFailures ++ [(segment, block, message)] } }
  if outage then
    modify fun w => { w with run := { w.run with
      consecutiveFailures := w.run.consecutiveFailures + 1 } }
    if (← get).run.consecutiveFailures ≥ maxConsecutiveFailures then
      throw (.failed ("the archive failed " ++ toString maxConsecutiveFailures ++
        " blocks in a row; stopping (resume to continue)"))

def foldRow (filter : RowFilter) (row : Row) : Replay Unit :=
  if !filter.keep row then return
  else match rowToEvent decoders row with
    | .ok (some event) => apply jobId tracked event
    | .ok none => return
    | .error _ => return

def foldRowList (filter : RowFilter) : List Row → Replay Unit
  | [] => return
  | row :: rest => do
    foldRow decoders jobId tracked filter row
    foldRowList filter rest

def foldRows (filter : RowFilter) (rows : List Row) : Replay Unit := do
  -- The block arrived and decoded.
  modify fun w => { w with run := { w.run with consecutiveFailures := 0 } }
  foldRowList decoders jobId tracked filter rows

/-- The blocks of a downloaded segment, from the index `i` on. -/
def segmentBlocks (filter : RowFilter) (name : String) (i : Nat) : List (List Row) → Replay Unit
  | [] => return
  | rows :: rest => do
    match (← ask).failure with
    | none => foldRows decoders jobId tracked filter rows
    | some (message, _) => blockFailed name (some i) message false
    segmentBlocks filter name (i + 1) rest

def wholeSegment (filter : RowFilter) (name : String) : Replay Unit := do
  if !(← ask).written then throw (.failed "cannot create the download directory")
  match (← ask).failure with
  | some (message, outage) => blockFailed name none message outage
  | none =>
    match (← ask).failure with
    | some (message, _) => blockFailed name none message false
    | none => segmentBlocks decoders jobId tracked filter name 0 (archive name)

def fetchBlocks (filter : RowFilter) (name : String) : List Nat → Replay Unit
  | [] => return
  | i :: rest => do
    match (← ask).failure, (archive name)[i]? with
    | none, some rows => foldRows decoders jobId tracked filter rows
    | none, none => blockFailed name (some i) "no such block" false
    | some (message, outage), _ => blockFailed name (some i) message outage
    fetchBlocks filter name rest

def recordAll : List (String × Option Nat × String) → Replay Unit
  | [] => return
  | (segment, block, _) :: rest => do
    if !(← ask).written then
      throw (.failed ("could not record a failed block of " ++ segment ++
        " (the job's error log is full or can't be written); stopping so it is not skipped"))
    modify fun w => { w with db := { w.db with failures := w.db.failures ++ [(segment, block)] } }
    recordAll rest

def setEntryFailures (failures : List (String × Option Nat × String)) : Replay Unit :=
  modify fun w => { w with run := { w.run with entryFailures := failures } }

def recordFailures : Replay Unit := do
  let failures := (← get).run.entryFailures
  setEntryFailures []
  recordAll failures

/-- Download, decode and fold one plan entry, up to its writes and its failed blocks being in
the database. -/
def entry (filter : RowFilter) (entry : PlanEntry) : Replay Unit := do
  setEntryFailures []
  match entry.mode with
  | .segment => wholeSegment decoders archive jobId tracked filter entry.name
  | .blocks => fetchBlocks decoders archive jobId tracked filter entry.name entry.indexes
  flush jobId
  recordFailures

def entries (filter : RowFilter) (tip : Nat) : List PlanEntry → Sweep → Replay Sweep
  | [], sweep => return sweep
  | next :: rest, sweep => do
    checkStop
    entry decoders archive jobId tracked filter next
    let sweep := { sweep with cursorSeq := max sweep.cursorSeq (min next.maxSeq tip) }
    save sweep
    countBytes
    entries filter tip rest sweep

def afterPage (through pageStart tip stalled : Nat) : Replay Nat :=
  if through ≤ pageStart ∧ through < tip then
    if stalled + 1 ≥ stalledPages then
      throw (.failed ("the archive plan stopped advancing at seq " ++ toString through))
    else return stalled + 1
  else return 0

/-- The loop over pages. Every round asks the world something, so `fuel` rounds are more than a
script of fewer than `fuel` replies lets it take. -/
def sweepPages : Nat → Nat → Sweep → Replay Unit
  | 0, _, _ => throw .crashed
  | fuel + 1, stalled, sweep => do
    checkStop
    let page ← plan hasKey sweep
    let tip := sweep.tipSeq.getD page.sealedTipSeq
    let started := { sweep with tipSeq := some tip }
    save started
    let swept ← entries decoders archive jobId tracked (started.filter tip) tip page.segments
      started
    let through := page.plannedThroughSeq
    let stalled ← afterPage through sweep.cursorSeq tip stalled
    let finished := { swept with
      cursorSeq := max swept.cursorSeq (min through tip)
      done := swept.done || through ≥ tip }
    save finished
    if finished.done then return
    else sweepPages fuel stalled finished

/-- One run of the job on what the database holds: the sweep unless it is done, then the fold is
flushed, whether the sweep has ended well or stopped. -/
def runJob (db : ReplayDb) (script : List Reply) : ReplayDb :=
  let start : World := { db := db, script := script }
  let (result, w) :=
    if db.sweep.done then (.ok (), start)
    else (sweepPages decoders archive jobId tracked hasKey (script.length + 1) 0 db.sweep).run start
  if result matches .error .crashed then w.db else ((flush jobId).run w).2.db

def runJobs (db : ReplayDb) (scripts : List (List Reply)) : ReplayDb :=
  scripts.foldl (runJob decoders archive jobId tracked hasKey) db

end Replay

end HappyView.Backfill
