import HappyView.Foundation.KeyedLog
import HappyView.Spaces.Migration

/-!
# Following a repo on its author's PDS

Once a repo is native the PDS is the source of truth and the rows here are an index of it.
`sync_repo` lists the host's operations since the saved cursor, page by page, writes the
last operation of each record into the index row by row, compares the index with the host's
commit, and saves the cursor. A write notification and the sweeper may each start a run.

`SyncDesk` is the machine of any number of runs against one host. The host is honest: its
log only grows, revisions ascend, it serves every operation past the cursor it is asked for,
and its commits are authentic. It withholds the value of superseded operations if it likes.
-/

namespace HappyView.Spaces

open HappyView.Foundation

/-! ## Operations -/

/-- One entry of a `listRepoOps` page. It carries no action. -/
structure OpEntry where
  rev : String
  collection : String
  rkey : String
  cid : Option String
  prev : Option String
  value : Option String
  deriving DecidableEq

structure RepoOp extends OpEntry where
  action : OplogAction
  deriving DecidableEq

def OpEntry.key (entry : OpEntry) : String × String := (entry.collection, entry.rkey)

/-- The action is implied by which CIDs are null. -/
def parseRepoOp (entry : OpEntry) : Except AppError RepoOp :=
  match entry.cid, entry.prev with
  | none, some _ => .ok ⟨entry, .delete⟩
  | some _, none => .ok ⟨entry, .create⟩
  | some _, some _ => .ok ⟨entry, .update⟩
  | none, none => .error (.internal "listRepoOps entry has neither cid nor prev")

/-- A malformed entry fails the whole page. -/
def parseRepoOpsPage : List OpEntry → Except AppError (List RepoOp)
  | [] => .ok []
  | entry :: entries => do
    let op ← parseRepoOp entry
    return op :: (← parseRepoOpsPage entries)

def latestOpPerRecord (ops : List RepoOp) : List RepoOp :=
  KeyedLog.lastPer (fun op => op.key) ops

/-- `OpAction` as `Debug` prints it. -/
def OplogAction.debug : OplogAction → String
  | .create => "Create"
  | .update => "Update"
  | .delete => "Delete"

def keyUri (space : Space) (did : String) (key : String × String) : String :=
  recordUri space.did space.typeNsid space.skey did key.1 key.2

def applyRepoOp (backend : Writers.DatabaseBackend) (space : Space) (did : String) (op : RepoOp)
    (s : SpaceStore) : Except AppError SpaceStore :=
  let uri := keyUri space did op.key
  match op.action with
  | .delete => .ok (s.deleteSpaceRecord uri)
  | .create | .update =>
    match op.cid, op.value with
    | some cid, some value =>
      .ok (s.upsertSpaceRecord backend uri ⟨space.id, did, op.collection, op.rkey, value, cid⟩)
    | _, _ => .error (.internal ("listRepoOps returned a " ++ op.action.debug ++
        " op with no record value for " ++ uri))

/-! ## The host -/

structure HostCommit where
  rev : String
  entries : List OpEntry
  deriving DecidableEq

def OpEntry.update (entry : OpEntry) : (String × String) × Option (String × String) :=
  (entry.key, entry.cid.bind fun cid => entry.value.map (cid, ·))

def HostCommit.updates (commit : HostCommit) :
    List ((String × String) × Option (String × String)) :=
  commit.entries.map OpEntry.update

/-- Collections are NSIDs and have no slash. -/
structure OpEntry.Valid (entry : OpEntry) : Prop where
  collection : NoSlash entry.collection
  cids : entry.cid.isSome ∨ entry.prev.isSome
  value : entry.cid.isSome → entry.value.isSome

structure HostCommit.Valid (commit : HostCommit) : Prop where
  some : commit.entries ≠ []
  rev : ∀ entry ∈ commit.entries, entry.rev = commit.rev
  entries : ∀ entry ∈ commit.entries, entry.Valid

instance (entry : OpEntry) : Decidable entry.Valid :=
  decidable_of_iff (NoSlash entry.collection ∧ (entry.cid.isSome ∨ entry.prev.isSome) ∧
      (entry.cid.isSome → entry.value.isSome))
    ⟨fun h => ⟨h.1, h.2.1, h.2.2⟩, fun h => ⟨h.1, h.2, h.3⟩⟩

instance (commit : HostCommit) : Decidable commit.Valid :=
  decidable_of_iff (commit.entries ≠ [] ∧ (∀ entry ∈ commit.entries, entry.rev = commit.rev) ∧
      ∀ entry ∈ commit.entries, entry.Valid)
    ⟨fun h => ⟨h.1, h.2.1, h.2.2⟩, fun h => ⟨h.1, h.2, h.3⟩⟩

def Honest (host : List HostCommit) : Prop :=
  Paging.Ascending HostCommit.rev host ∧ ∀ commit ∈ host, commit.Valid

def hostLog (host : List HostCommit) : List (List ((String × String) × Option (String × String))) :=
  host.map HostCommit.updates

def entriesSince (host : List HostCommit) (since : Option String) : List OpEntry :=
  (Paging.after HostCommit.rev since host).flatMap HostCommit.entries

/-- The entries as they are served: without the values of superseded ones, unless those are
kept. -/
def serve (keep : Bool) : List OpEntry → List OpEntry
  | [] => []
  | entry :: later =>
    (if keep || later.all (·.key ≠ entry.key) then entry else { entry with value := none }) ::
      serve keep later

structure RepoRecord where
  collection : String
  rkey : String
  cid : String
  value : String
  deriving DecidableEq

def RepoRecord.version (r : RepoRecord) : RecordVersion := ⟨r.collection, r.rkey, r.cid⟩

def SpaceRecord.indexed (row : SpaceRecord) : RepoRecord :=
  ⟨row.collection, row.rkey, row.cid, row.record⟩

def hostRecords (host : List HostCommit) : List RepoRecord :=
  (KeyedLog.current (hostLog host)).entries.map fun entry =>
    ⟨entry.1.1, entry.1.2, entry.2.1, entry.2.2⟩

def SpaceStore.indexedRecords (s : SpaceStore) (spaceId did : String) : List RepoRecord :=
  (s.authorRecords spaceId did).map SpaceRecord.indexed

/-- A commit that was authenticated: by the author's signature, or by the MAC of the answer. -/
inductive VerifiedCommit where
  | signed (rev : String) (hash ikm sig mac : List UInt8)
  | mac (rev : String) (data : List UInt8)
  deriving DecidableEq

def VerifiedCommit.rev : VerifiedCommit → String
  | signed rev .. | mac rev _ => rev

def VerifiedCommit.hash : VerifiedCommit → List UInt8
  | signed _ hash .. => hash
  | mac _ data => data

def latestCommit (crypto : Crypto) (host : List HostCommit)
    (signature : Option (List UInt8 × List UInt8 × List UInt8)) : Option VerifiedCommit :=
  host.getLast?.map fun commit =>
    let hash := setDigest crypto ((hostRecords host).map RepoRecord.version)
    match signature with
    | some (ikm, sig, mac) => .signed commit.rev hash ikm sig mac
    | none => .mac commit.rev hash

/-! ## Runs -/

inductive SyncOutcome where
  | notNative
  | upToDate
  | applied (ops : Nat) (rev : String)
  | diverged (expected ours : List UInt8)
  deriving DecidableEq

structure Window where
  applied : Nat
  lastRev : String
  /-- How many commits the host had when the last page was served. -/
  readTo : Nat
  deriving DecidableEq

inductive SyncPhase where
  | listing (since : Option String) (got : List RepoOp)
  | applying (window : Window) (pending : List RepoOp)
  | fetched (window : Window) (commit : VerifiedCommit)
  | agreed (window : Window) (commit : VerifiedCommit) (fold : LtHashState)
  | saving (window : Window) (commit : VerifiedCommit) (fold : LtHashState) (row : RepoState)

structure SyncDesk where
  store : SpaceStore
  host : List HostCommit
  runs : AList fun _ : Nat => SyncPhase := ∅
  /-- `none` is a run that failed. -/
  ended : List (Nat × Option SyncOutcome) := []
  /-- The run that was the last to finish listing, and how many commits the host had. -/
  latest : Option (Nat × Nat) := none

inductive SyncAction where
  | host (commit : HostCommit)
  | start (id : Nat)
  /-- The host serves up to `count` more entries, and says whether there may be more. -/
  | page (id count : Nat) (more keep : Bool)
  | apply (id : Nat)
  | commit (id : Nat) (signature : Option (List UInt8 × List UInt8 × List UInt8))
  | check (id : Nat)
  | reread (id : Nat)
  | save (id : Nat)
  | fail (id : Nat)
  deriving DecidableEq

def SyncAction.run : SyncAction → Option Nat
  | .host _ => none
  | .start id | .page id .. | .apply id | .commit id _ | .check id | .reread id | .save id
  | .fail id => some id

namespace SyncDesk

variable (crypto : Crypto) (backend : Writers.DatabaseBackend) (space : Space) (did : String)

def proceed (m : SyncDesk) (id : Nat) (phase : SyncPhase) : SyncDesk :=
  { m with runs := m.runs.insert id phase }

def finish (m : SyncDesk) (id : Nat) (outcome : Option SyncOutcome) : SyncDesk :=
  { m with runs := m.runs.erase id, ended := (id, outcome) :: m.ended }

def begin (m : SyncDesk) (id : Nat) : SyncDesk :=
  let row := m.store.getOrCreateRepoState space.id did
  let m := { m with store := Migration.created space.id did m.store }
  if row.hostMode = .native then m.proceed id (.listing row.syncCursor [])
  else m.finish id (some .notNative)

def listed (m : SyncDesk) (id : Nat) (ops : List RepoOp) : SyncDesk :=
  match ops.getLast? with
  | none => m.finish id (some .upToDate)
  | some last =>
    { m.proceed id (.applying ⟨ops.length, last.rev, m.host.length⟩ (latestOpPerRecord ops)) with
      latest := some (id, m.host.length) }

def page (m : SyncDesk) (id count : Nat) (more keep : Bool) (since : Option String)
    (got : List RepoOp) : Option SyncDesk :=
  let left := (entriesSince m.host since).drop got.length
  if more ∨ left.length ≤ count then
    match parseRepoOpsPage ((serve keep left).take count) with
    | .error _ => some (m.finish id none)
    | .ok ops =>
      if more then some (m.proceed id (.listing since (got ++ ops)))
      else some (m.listed id (got ++ ops))
  else none

def fold (m : SyncDesk) : LtHashState :=
  foldElements (fun r : RecordVersion => crypto.element r.collection r.rkey r.cid)
    ((m.store.listAllSpaceRecords space.id did).map SpaceRecord.version)

def check (m : SyncDesk) (id : Nat) (window : Window) (commit : VerifiedCommit) : SyncDesk :=
  let fold := m.fold crypto space did
  let ours := crypto.sha256 fold.asBytes
  if commit.hash ≠ ours then m.finish id (some (.diverged commit.hash ours))
  else m.proceed id (.agreed window commit fold)

/-- The row with the cursor and the adopted commit. A commit that came with a MAC carries
nothing that authenticates it at rest. -/
def adopt (row : RepoState) (window : Window) (commit : VerifiedCommit) (fold : LtHashState) :
    RepoState :=
  let (ikm, sig, mac) := match commit with
    | .signed _ _ ikm sig mac => (some ikm, some sig, some mac)
    | .mac .. => (none, none, none)
  { row with
    syncCursor := some window.lastRev
    rev := some commit.rev
    hash := some commit.hash
    ikm := ikm
    sig := sig
    mac := mac
    lthashState := fold.asBytes }

def save (m : SyncDesk) (id : Nat) (window : Window) (commit : VerifiedCommit)
    (fold : LtHashState) (row : RepoState) : SyncDesk :=
  { m with store := m.store.updateRepoState space.id did (adopt row window commit fold) }.finish id
    (some (.applied window.applied window.lastRev))

def step (m : SyncDesk) : SyncAction → Option SyncDesk
  | .host commit =>
    if (∀ earlier ∈ m.host, earlier.rev < commit.rev) ∧ commit.Valid then
      some { m with host := m.host ++ [commit] }
    else none
  | .start id =>
    if m.runs.lookup id = none ∧ id ∉ m.ended.map Prod.fst then some (m.begin space did id)
    else none
  | .page id count more keep =>
    match m.runs.lookup id with
    | some (.listing since got) => m.page id count more keep since got
    | _ => none
  | .apply id =>
    match m.runs.lookup id with
    | some (.applying window (op :: pending)) =>
      match applyRepoOp backend space did op m.store with
      | .ok store => some { m.proceed id (.applying window pending) with store := store }
      | .error _ => some (m.finish id none)
    | _ => none
  | .commit id signature =>
    match m.runs.lookup id with
    | some (.applying window []) => (latestCommit crypto m.host signature).map fun commit =>
      m.proceed id (.fetched window commit)
    | _ => none
  | .check id =>
    match m.runs.lookup id with
    | some (.fetched window commit) => some (m.check crypto space did id window commit)
    | _ => none
  | .reread id =>
    match m.runs.lookup id with
    | some (.agreed window commit fold) => some
        { m.proceed id (.saving window commit fold (m.store.getOrCreateRepoState space.id did)) with
          store := Migration.created space.id did m.store }
    | _ => none
  | .save id =>
    match m.runs.lookup id with
    | some (.saving window commit fold row) => some (m.save space did id window commit fold row)
    | _ => none
  | .fail id =>
    match m.runs.lookup id with
    | some _ => some (m.finish id none)
    | none => none

def machine (store : SpaceStore) (host : List HostCommit) : Machine SyncDesk SyncAction where
  start := { store := store, host := host }
  step := step crypto backend space did

end SyncDesk

end HappyView.Spaces
