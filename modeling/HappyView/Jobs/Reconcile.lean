import HappyView.Foundation.Procedure
import HappyView.Records.Store
import Mathlib.Data.List.Infix
import Mathlib.Data.List.Sort

/-!
# Reconciling a collection

`happyview.reconcile-collection` finds the rows of a collection that their accounts' PDSes no
longer hold, and deletes them. For each account it reads the stored rows, lists the records at
the PDS page by page, asks for each missing one again, runs the delete hook and deletes the row
if it is still the one that was read.

The world answers each question of the job with a `Reply`, from a script; where the script
ends, the process is gone. Before it answers, other writers may change the store in any way. A
transcript keeps what the job has heard and removed; nothing in the job reads it.
-/

namespace HappyView.Jobs.Reconcile

open HappyView.Foundation HappyView.Records

/-! ## Inputs and reports -/

structure Options where
  collection : String
  dryRun : Bool := true
  /-- Accounts whose suspicious listing is acted on anyway. -/
  allowSuspicious : List String := []
  deriving DecidableEq

inductive Reason where
  | pdsUnresolved
  | listingFailed
  | repoUnavailable
  | rateLimited
  | suspiciousListing
  | storeReadFailed
  | stopped
  deriving DecidableEq

structure Skipped where
  did : String
  reason : Reason
  detail : String
  deriving DecidableEq

inductive Outcome where
  | missing
  | deleted
  | keptByHook
  | hookFailed
  | changedSinceCheck
  | failed
  deriving DecidableEq

structure Missing where
  uri : String
  cid : Option String
  outcome : Outcome
  deriving DecidableEq

structure StaleCid where
  uri : String
  storedCid : Option String
  pdsCid : String
  deriving DecidableEq

structure Report where
  didsChecked : Nat := 0
  didsSkipped : List Skipped := []
  missing : List Missing := []
  missingTotal : Nat := 0
  unconfirmedTotal : Nat := 0
  deleted : Nat := 0
  keptByHook : Nat := 0
  hookFailed : Nat := 0
  changedSinceCheck : Nat := 0
  failed : Nat := 0
  staleCid : List StaleCid := []
  staleCidTotal : Nat := 0
  stopped : Option String := none
  deriving DecidableEq

def missingListed : Nat := 1000

def staleListed : Nat := 100

def rateLimitTries : Nat := 5

def suspiciousMisses : Nat := 10

def Report.count (report : Report) : Outcome → Report
  | .deleted => { report with deleted := report.deleted + 1 }
  | .keptByHook => { report with keptByHook := report.keptByHook + 1 }
  | .hookFailed => { report with hookFailed := report.hookFailed + 1 }
  | .changedSinceCheck => { report with changedSinceCheck := report.changedSinceCheck + 1 }
  | .failed => { report with failed := report.failed + 1 }
  | .missing => report

def Report.addMissing (report : Report) (entry : Missing) : Report :=
  let report := report.count entry.outcome
  if report.missing.length < missingListed then
    { report with missing := report.missing ++ [entry] }
  else report

def Report.addStale (report : Report) (entry : StaleCid) : Report :=
  let report := { report with staleCidTotal := report.staleCidTotal + 1 }
  if report.staleCid.length < staleListed then
    { report with staleCid := report.staleCid ++ [entry] }
  else report

/-! ## What the store holds -/

structure StoredKey where
  rkey : String
  cid : Option String
  rev : Option String
  deriving DecidableEq

def networkKeysOf (s : Store) (did collection : String) : List StoredKey :=
  let rows := s.records.entries.filter fun entry =>
    entry.1.did = did ∧ entry.1.collection = collection ∧ entry.2.indexedAt.isSome
  (rows.map fun entry => ⟨entry.1.rkey, some entry.2.cid, entry.2.rev⟩).insertionSort
    fun a b => a.rkey ≤ b.rkey

def networkRow (s : Store) (key : RecordKey) : Option Row :=
  (s.records.lookup key).filter (·.indexedAt.isSome)

/-! ## The world -/

structure Response where
  status : Nat
  body : Except String String

inductive HookOutcome where
  | proceed
  | skip
  | replace (value : String)
  deriving DecidableEq

structure ListedRecord where
  uri : String
  cid : String
  deriving DecidableEq

structure ListRecordsPage where
  records : List ListedRecord
  cursor : Option String
  deriving DecidableEq

structure Unusable where
  reason : Reason
  detail : String
  deriving DecidableEq

inductive Event where
  | read (did : String) (stored : List StoredKey)
  | resolved (did pds : String)
  | answer (url : String) (status : Nat) (body : String)
  | hook (uri : String) (outcome : Except String HookOutcome)
  | removed (key : RecordKey) (row : Option Row)

structure Reply where
  /-- What other writers have committed by then. -/
  ingest : Store → Store := id
  stop : Option String := none
  storeError : Option String := none
  pds : String → Except String String := fun _ => .error "unresolved"
  response : String → Except String Response := fun _ => .error "unreachable"
  /-- How the delete hook ends for a record. -/
  hook : String → Except String HookOutcome := fun _ => .ok .proceed
  now : String := ""

structure World where
  store : Store
  script : List Reply
  report : Report := {}
  transcript : List Event := []

inductive Halt where
  | crashed
  | running
  deriving DecidableEq

abbrev JobM := Procedure World Halt

/-- Take the next reply, and note what it says to the question. -/
def hear (event : Reply → Option Event) : JobM Reply := do
  match (← get).script with
  | [] => throw .crashed
  | reply :: rest =>
    modify fun w => { w with
      store := reply.ingest w.store
      script := rest
      transcript := w.transcript ++ (event reply).toList }
    return reply

def ask : JobM Reply := hear fun _ => none

def note (event : Event) : JobM Unit :=
  modify fun w => { w with transcript := w.transcript ++ [event] }

def updateReport (f : Report → Report) : JobM Unit :=
  modify fun w => { w with report := f w.report }

structure Texts where
  page : String → Except String ListRecordsPage
  /-- The `error` of a JSON body. -/
  error : String → Option String
  /-- The `message` of a JSON body. -/
  message : String → Option String
  urlEncode : String → String
  displayStatus : Nat → String

section Job

variable (texts : Texts) (jobId : Option String)

/-- Without a job there is nobody to stop it. -/
def shouldStop : JobM (Option String) := do
  match jobId with
  | none => return none
  | some _ => return (← ask).stop

def stopAsked : JobM Bool := do
  match ← shouldStop jobId with
  | some reason =>
    updateReport fun report => { report with stopped := some reason }
    return true
  | none => return false

/-! ## Requests -/

def responseEvent (url : String) (reply : Reply) : Option Event :=
  match reply.response url with
  | .ok ⟨status, .ok body⟩ => if status = 429 then none else some (.answer url status body)
  | _ => none

/-- With `left` tries before a rate limit is given up on. -/
def getFrom (url : String) : Nat → Nat → JobM (Except Unusable (Nat × String))
  | 0, tries => pure (.error
      ⟨.rateLimited, "still rate limited after " ++ toString tries ++ " tries"⟩)
  | left + 1, tries => do
    match (← hear (responseEvent url)).response url with
    | .error e => return .error ⟨.listingFailed, e⟩
    | .ok response =>
      if response.status = 429 then getFrom url left (tries + 1)
      else match response.body with
        | .error e => return .error ⟨.listingFailed, e⟩
        | .ok body => return .ok (response.status, body)

def getUrl (url : String) : JobM (Except Unusable (Nat × String)) := getFrom url rateLimitTries 0

def isSuccess (status : Nat) : Bool := 200 ≤ status ∧ status < 300

def trimSlashes (text : String) : String :=
  String.ofList (text.toList.reverse.dropWhile (· == '/')).reverse

def listUrl (pds did collection : String) (cursor : Option String) : String :=
  trimSlashes pds ++ "/xrpc/com.atproto.repo.listRecords?repo=" ++ texts.urlEncode did ++
    "&collection=" ++ texts.urlEncode collection ++ "&limit=100" ++
    cursor.elim "" fun cursor => "&cursor=" ++ texts.urlEncode cursor

def getRecordUrl (pds did collection rkey : String) : String :=
  trimSlashes pds ++ "/xrpc/com.atproto.repo.getRecord?repo=" ++ texts.urlEncode did ++
    "&collection=" ++ texts.urlEncode collection ++ "&rkey=" ++ texts.urlEncode rkey

def excerpt (body : String) : String := String.ofList (body.toList.take 200)

/-- A missing, deactivated or taken-down repo is the account's state. -/
def listingError (status : Nat) (body : String) : Unusable where
  reason :=
    if (texts.error body).getD "" ∈
        ["RepoNotFound", "RepoDeactivated", "RepoTakendown", "RepoSuspended"] ∨
      "Could not find repo".toList <:+: ((texts.message body).getD "").toList
    then .repoUnavailable else .listingFailed
  detail := "listRecords answered " ++ texts.displayStatus status ++ ": " ++ excerpt body

/-! ## The listing -/

abbrev Listing := AList fun _ : String => String

def lastSegment (uri : String) : Option String := (Text.split '/' uri).getLast?

def addListed (listing : Listing) (record : ListedRecord) : Listing :=
  match lastSegment record.uri with
  | some rkey => listing.insert rkey record.cid
  | none => listing

/-- The pages from the one at `cursor` on; `none` if the fuel does not reach their end. -/
def listFrom (pds did collection : String) : Nat → Option String → List String → Listing →
    JobM (Option (Except Unusable Listing))
  | 0, _, _, _ => return none
  | fuel + 1, cursor, seen, listing => do
    match ← shouldStop jobId with
    | some reason => return some (.error ⟨.stopped, reason⟩)
    | none =>
      match ← getUrl (listUrl texts pds did collection cursor) with
      | .error e => return some (.error e)
      | .ok (status, body) =>
        if !isSuccess status then return some (.error (listingError texts status body))
        else match texts.page body with
          | .error e =>
            return some (.error ⟨.listingFailed, "invalid listRecords response: " ++ e⟩)
          | .ok page =>
            let listing := page.records.foldl addListed listing
            match page.cursor with
            | none => return some (.ok listing)
            | some next =>
              if page.records.isEmpty then return some (.error
                ⟨.listingFailed, "listRecords answered an empty page with a cursor"⟩)
              else if next ∈ seen then return some (.error
                ⟨.listingFailed, "listRecords repeated a cursor"⟩)
              else listFrom pds did collection fuel (some next) (next :: seen) listing

def listRecords (fuel : Nat) (pds did collection : String) :
    JobM (Option (Except Unusable Listing)) :=
  listFrom texts jobId pds did collection fuel none [] ∅

/-! ## One record -/

inductive Confirmed where
  | missing
  | present
  | unknown
  deriving DecidableEq

def getrecordAnswer (status : Nat) (body : String) : Confirmed :=
  if isSuccess status then .present
  else if status ≠ 400 ∧ status ≠ 404 then .unknown
  else if texts.error body = some "RecordNotFound" then .missing
  else .unknown

def confirmMissing (pds did collection rkey : String) : JobM Confirmed := do
  match ← getUrl (getRecordUrl texts pds did collection rkey) with
  | .ok (status, body) => return getrecordAnswer texts status body
  | .error _ => return .unknown

def removeRow (key : RecordKey) (found : StoredKey) : JobM Outcome := do
  let reply ← ask
  match reply.storeError with
  | some _ => return .failed
  | none =>
    let s := (← get).store
    match s.deleteNetworkIfUnchanged key.uri key.did key.collection found.cid found.rev
      reply.now with
    | (s', true) =>
      modify fun w => { w with store := s' }
      note (.removed key (s.records.lookup key))
      return .deleted
    | (_, false) => return .changedSinceCheck

def delete (did collection : String) (found : StoredKey) : JobM Outcome := do
  let key : RecordKey := ⟨did, collection, found.rkey⟩
  match (← ask).storeError with
  | some _ => return .failed
  | none =>
    match networkRow (← get).store key with
    | none => return .changedSinceCheck
    | some row =>
      if some row.cid ≠ found.cid ∨ row.rev ≠ found.rev then return .changedSinceCheck
      else
        match (← hear fun reply => some (.hook key.uri (reply.hook key.uri))).hook key.uri with
        | .ok .skip => return .keptByHook
        | .error _ => return .hookFailed
        | .ok .proceed | .ok (.replace _) => removeRow key found

/-! ## One account -/

variable (options : Options)

def suspicious (stored misses : List StoredKey) (listing : Listing) : Bool :=
  listing.keys.isEmpty ||
    (suspiciousMisses ≤ misses.length && stored.length < misses.length * 2)

def compare (did : String) (listing : Listing) (report : Report) (found : StoredKey) : Report :=
  match listing.lookup found.rkey with
  | some pdsCid =>
    if found.cid ≠ some pdsCid then
      report.addStale ⟨RecordKey.uri ⟨did, options.collection, found.rkey⟩, found.cid, pdsCid⟩
    else report
  | none => report

def checkMiss (pds did : String) (found : StoredKey) : JobM Unit := do
  match ← confirmMissing texts pds did options.collection found.rkey with
  | .present | .unknown =>
    updateReport fun report => { report with unconfirmedTotal := report.unconfirmedTotal + 1 }
  | .missing =>
    updateReport fun report => { report with missingTotal := report.missingTotal + 1 }
    let outcome ← if options.dryRun then pure .missing
      else delete did options.collection found
    updateReport (·.addMissing
      ⟨RecordKey.uri ⟨did, options.collection, found.rkey⟩, found.cid, outcome⟩)

def checkMisses (pds did : String) : List StoredKey → JobM Unit
  | [] => return
  | found :: misses => do
    if ← stopAsked jobId then return
    else
      checkMiss texts options pds did found
      checkMisses pds did misses

def skipAccount (did : String) (reason : Reason) (detail : String) : JobM Unit :=
  updateReport fun report =>
    { report with didsSkipped := report.didsSkipped ++ [⟨did, reason, detail⟩] }

def check (fuel : Nat) (did : String) : JobM Unit := do
  match (← ask).storeError with
  | some e => skipAccount did .storeReadFailed e
  | none =>
    let stored := networkKeysOf (← get).store did options.collection
    note (.read did stored)
    if stored.isEmpty then return
    else match (← hear fun reply => (reply.pds did).toOption.map (.resolved did)).pds did with
      | .error e => skipAccount did .pdsUnresolved e
      | .ok pds =>
        match ← listRecords texts jobId fuel pds did options.collection with
        | none => throw .running
        | some (.error ⟨.stopped, detail⟩) =>
          updateReport fun report => { report with stopped := some detail }
        | some (.error ⟨reason, detail⟩) => skipAccount did reason detail
        | some (.ok listing) =>
          updateReport fun report => stored.foldl (compare options did listing) report
          let misses := stored.filter fun found => (listing.lookup found.rkey).isNone
          let checked (report : Report) := { report with didsChecked := report.didsChecked + 1 }
          if misses.isEmpty then updateReport checked
          else if suspicious stored misses listing && !options.allowSuspicious.contains did then
            skipAccount did .suspiciousListing ("the PDS lists " ++
              toString (stored.length - misses.length) ++ " of the " ++ toString stored.length ++
              " records stored for this account; name it in allow_suspicious to act on it")
          else
            updateReport checked
            checkMisses texts jobId options pds did misses

def reconcile (fuel : Nat) : List String → JobM Unit
  | [] => return
  | did :: dids => do
    if ← stopAsked jobId then return
    else
      check texts jobId options fuel did
      if (← get).report.stopped.isSome then return
      else reconcile fuel dids

end Job

end HappyView.Jobs.Reconcile
