import HappyView.Spaces.LtHash
import HappyView.Spaces.Members
import HappyView.Spaces.Oplog
import HappyView.Spaces.Writers

/-!
# Writes to the repos of a space

`createRecord`, `putRecord`, `deleteRecord` and `applyWrites`. Each reads the space, checks
that the author may write there and that the repo is hosted here, and then writes in one
transaction that holds the space. `commit_write` ends the transaction: it folds the writes
into the author's set hash, appends them to the oplog and advances the revisions.

The single writes are batches of one.
-/

namespace HappyView.Spaces

open HappyView.Foundation

def Did := { did : String // '/' ∉ did.toList }

inductive HostMode where
  | polyfill
  | migrating
  | native
  deriving DecidableEq

def canTransition : HostMode → HostMode → Bool
  | .polyfill, .migrating | .migrating, .native | .migrating, .polyfill | .native, .polyfill => true
  | _, _ => false

def HostMode.isAuthoritativeHere : HostMode → Bool
  | .polyfill | .migrating => true
  | .native => false

structure HostedSpace extends Space where
  /-- The entries of the config's `allowedCollections`; one that is no text is `none`. -/
  allowedCollections : List (Option String)
  revision : Option String
  deriving DecidableEq

structure SpaceRecord where
  spaceId : String
  authorDid : String
  collection : String
  rkey : String
  record : String
  cid : String
  deriving DecidableEq

structure RepoState where
  lthashState : List UInt8
  rev : Option String
  hash : Option (List UInt8)
  ikm : Option (List UInt8)
  sig : Option (List UInt8)
  mac : Option (List UInt8)
  hostMode : HostMode
  syncCursor : Option String
  deriving DecidableEq

/-- The row `get_or_create_repo_state` inserts. -/
def RepoState.created : RepoState where
  lthashState := List.replicate stateBytes 0
  rev := none
  hash := none
  ikm := none
  sig := none
  mac := none
  hostMode := .polyfill
  syncCursor := none

structure SpaceStore where
  spaces : List HostedSpace := []
  members : List SpaceMember := []
  records : AList fun _ : String => SpaceRecord := ∅
  repoStates : AList fun _ : String × String => RepoState := ∅
  /-- By space and author, in the order of the inserts. -/
  oplog : List ((String × String) × OplogEntry) := []
  writers : AList fun _ : String => List Writers.Writer := ∅

/-- The functions that the writes use as they are given. -/
structure Crypto where
  element : String → String → String → LtHashState
  contentCid : String → Option String
  sha256 : List UInt8 → List UInt8
  /-- The signature of a commit's context: space, author, revision and key material. -/
  sign : String → String → String → List UInt8 → List UInt8
  computeMac : String → String → String → List UInt8 → List UInt8 → List UInt8

/-- `record_element`, the text that BLAKE3 expands. -/
def recordElement (collection rkey cid : String) : String :=
  "/".intercalate [collection, rkey, cid]

def recordUri (spaceDid typeNsid skey did collection rkey : String) : String :=
  "at://" ++ "/".intercalate [spaceDid, "space", typeNsid, skey, did, collection, rkey]

inductive WriteOp where
  /-- `rkey` is the key given, or else the TID generated for it. -/
  | create (collection rkey value : String)
  | update (collection rkey value : String) (swapRecord : Option String)
  | delete (collection rkey : String) (swapRecord : Option String)
  deriving DecidableEq

/-- What a call draws: from the clock the revision of the write, and the time and the TID
for the writer set; at random the key material of the commit. -/
structure Stamp where
  rev : String
  nowMicros : Nat
  tid : String
  ikm : List UInt8
  deriving DecidableEq

namespace SpaceStore

variable (s : SpaceStore)

/-! ## Statements -/

def getSpaceRecord (uri : String) : Option SpaceRecord := s.records.lookup uri

def insertSpaceRecord (uri : String) (row : SpaceRecord) : Except AppError SpaceStore :=
  match s.getSpaceRecord uri with
  | some _ => .error (.conflict "Record already exists")
  | none => .ok { s with records := s.records.insert uri row }

/-- SQLite replaces the row. Postgres keeps the columns it was inserted with, but for the
record and the cid. -/
def upsertSpaceRecord (backend : Writers.DatabaseBackend) (uri : String) (row : SpaceRecord) :
    SpaceStore :=
  match backend, s.getSpaceRecord uri with
  | .postgres, some held =>
    { s with records := s.records.insert uri { held with record := row.record, cid := row.cid } }
  | _, _ => { s with records := s.records.insert uri row }

def swapError (uri : String) : AppError :=
  if (s.getSpaceRecord uri).isSome then .conflict "Record CID mismatch"
  else .notFound "Record not found"

def upsertSpaceRecordWithSwap (uri : String) (row : SpaceRecord) (swapCid : String) :
    Except AppError SpaceStore :=
  match (s.getSpaceRecord uri).filter (·.cid = swapCid) with
  | some held => .ok
      { s with records := s.records.insert uri { held with record := row.record, cid := row.cid } }
  | none => .error (s.swapError uri)

def deleteSpaceRecord (uri : String) : SpaceStore := { s with records := s.records.erase uri }

def deleteSpaceRecordWithSwap (uri swapCid : String) : Except AppError SpaceStore :=
  match (s.getSpaceRecord uri).filter (·.cid = swapCid) with
  | some _ => .ok (s.deleteSpaceRecord uri)
  | none => .error (s.swapError uri)

def authorRecords (spaceId did : String) : List SpaceRecord :=
  (s.records.entries.map (·.2)).filter fun row => row.spaceId = spaceId ∧ row.authorDid = did

def readRepoState (spaceId did : String) : Option RepoState := s.repoStates.lookup (spaceId, did)

def getOrCreateRepoState (spaceId did : String) : RepoState :=
  (s.readRepoState spaceId did).getD .created

def updateRepoState (spaceId did : String) (state : RepoState) : SpaceStore :=
  { s with repoStates := s.repoStates.insert (spaceId, did) state }

def updateSpaceRevision (spaceId rev : String) : SpaceStore :=
  { s with spaces := s.spaces.map fun space =>
      if space.id = spaceId then { space with revision := some rev } else space }

/-! ## Transactions -/

/-- One write of a batch. The previous cid is the one to swap, if the caller gave one, and
the stored one otherwise. -/
def applyOp (crypto : Crypto) (backend : Writers.DatabaseBackend) (space : Space) (did : String)
    (op : WriteOp) : Except AppError (AppliedOp × SpaceStore) := do
  let uri := recordUri space.did space.typeNsid space.skey did
  let row (collection rkey value cid : String) : SpaceRecord :=
    ⟨space.id, did, collection, rkey, value, cid⟩
  let unencodable : AppError := .badRequest
    "record cannot be encoded as DAG-CBOR (non-finite number, or malformed $link/$bytes)"
  match op with
  | .create collection rkey value =>
    let cid ← require unencodable (crypto.contentCid value)
    let s ← s.insertSpaceRecord (uri collection rkey) (row collection rkey value cid)
    return (⟨.create, collection, rkey, some cid, none⟩, s)
  | .update collection rkey value (some swap) =>
    let cid ← require unencodable (crypto.contentCid value)
    let s ← s.upsertSpaceRecordWithSwap (uri collection rkey) (row collection rkey value cid) swap
    return (⟨.update, collection, rkey, some cid, some swap⟩, s)
  | .update collection rkey value none =>
    let cid ← require unencodable (crypto.contentCid value)
    let oldCid := (s.getSpaceRecord (uri collection rkey)).map (·.cid)
    let s := s.upsertSpaceRecord backend (uri collection rkey) (row collection rkey value cid)
    return (⟨if oldCid.isSome then .update else .create, collection, rkey, some cid, oldCid⟩, s)
  | .delete collection rkey (some swap) =>
    let s ← s.deleteSpaceRecordWithSwap (uri collection rkey) swap
    return (⟨.delete, collection, rkey, none, some swap⟩, s)
  | .delete collection rkey none =>
    let held ← require (.notFound "Record not found") (s.getSpaceRecord (uri collection rkey))
    ensure (.forbidden "You can only delete your own records") (held.authorDid = did)
    return (⟨.delete, collection, rkey, none, some held.cid⟩,
      s.deleteSpaceRecord (uri collection rkey))

def applyOps (crypto : Crypto) (backend : Writers.DatabaseBackend) (space : Space) (did : String) :
    List WriteOp → SpaceStore → Except AppError (List AppliedOp × SpaceStore)
  | [], s => .ok ([], s)
  | op :: ops, s => do
    let (applied, s) ← s.applyOp crypto backend space did op
    let (rest, s) ← applyOps crypto backend space did ops s
    return (applied :: rest, s)

def foldOp (crypto : Crypto) (hash : LtHashState) (op : AppliedOp) : LtHashState :=
  let removed := op.oldCid.elim hash fun cid =>
    hash.remove (crypto.element op.collection op.rkey cid)
  op.newCid.elim removed fun cid => removed.add (crypto.element op.collection op.rkey cid)

def commitWrite (crypto : Crypto) (space : Space) (did : String) (stamp : Stamp)
    (ops : List AppliedOp) : Except AppError SpaceStore := do
  let state := s.getOrCreateRepoState space.id did
  ensure (.internal ("corrupt repo state: lthash is " ++ toString state.lthashState.length ++
    " bytes, expected 2048")) (state.lthashState.length = stateBytes)
  let setHash := ops.foldl (foldOp crypto) (.fromBytes state.lthashState)
  let hash := crypto.sha256 setHash.asBytes
  let spaceUri := "at://" ++ "/".intercalate [space.did, "space", space.typeNsid, space.skey]
  let state' : RepoState :=
    { state with
      lthashState := setHash.asBytes
      rev := some stamp.rev
      hash := some hash
      ikm := some stamp.ikm
      sig := some (crypto.sign spaceUri did stamp.rev stamp.ikm)
      mac := some (crypto.computeMac spaceUri did stamp.rev stamp.ikm hash) }
  let s := (s.updateRepoState space.id did state').updateSpaceRevision space.id stamp.rev
  let rows := (s.writers.lookup space.id).getD []
  let (_, rows) ← Writers.record rows ⟨did, stamp.rev, hash⟩ stamp.nowMicros stamp.tid
  return { s with
    oplog := s.oplog ++ (writeEntries stamp.rev ops).map ((space.id, did), ·)
    writers := s.writers.insert space.id rows }

/-! ## Checks before the transaction -/

def resolveSpace (spaceRef : String) : Except AppError HostedSpace := do
  let uri ← SpaceUri.parse spaceRef
  let space ← require (.notFound "Space not found") (s.spaces.find? fun space =>
    space.did = uri.did && space.typeNsid = uri.typeNsid && space.skey = uri.skey)
  let _ ← parseSpaceRow space.toSpace
  return space

def tables : Tables := ⟨s.spaces.map HostedSpace.toSpace, s.members⟩

/-- For a caller without a space credential; one with a credential may not write. -/
def requireMembership (space : Space) (did : String) (requireWrite : Bool) :
    Except AppError MemberAccess := do
  let access ← require (.forbidden "You are not a member of this space")
    (← s.tables.isMember space.id did)
  ensure (.forbidden "Write access is required for this action") (!requireWrite || access.canWrite)
  return access

end SpaceStore

def checkCollectionAllowed (space : HostedSpace) (collection : String) : Except AppError Unit :=
  ensure (.badRequest ("collection '" ++ collection ++ "' is not allowed in this space"))
    (space.allowedCollections.isEmpty || space.allowedCollections.any (· == some collection))

/-- A delete checks no collection. -/
def WriteOp.checkAllowed (space : HostedSpace) : WriteOp → Except AppError Unit
  | .create collection .. | .update collection .. => checkCollectionAllowed space collection
  | .delete .. => .ok ()

/-- The space's revision as the call read it, against the one the caller expects. -/
def checkSwapCommit (revision swapCommit : Option String) : Except AppError Unit :=
  match swapCommit with
  | none => .ok ()
  | some expected =>
    ensure (.conflict "swapCommit mismatch") (match revision with
      | some current => current = expected
      | none => expected.isEmpty)

/-! ## Calls -/

structure WriteCall where
  did : Did
  spaceRef : String
  writes : List WriteOp
  swapCommit : Option String
  stamp : Stamp

def createRecord (did : Did) (spaceRef collection record rkey : String) (stamp : Stamp) :
    WriteCall :=
  ⟨did, spaceRef, [.create collection rkey record], none, stamp⟩

def putRecord (did : Did) (spaceRef collection rkey record : String) (swapCid : Option String)
    (stamp : Stamp) : WriteCall :=
  ⟨did, spaceRef, [.update collection rkey record swapCid], none, stamp⟩

def deleteRecord (did : Did) (spaceRef collection rkey : String) (swapCid : Option String)
    (stamp : Stamp) : WriteCall :=
  ⟨did, spaceRef, [.delete collection rkey swapCid], none, stamp⟩

def applyWrites (did : Did) (spaceRef : String) (swapCommit : Option String)
    (writes : List WriteOp) (stamp : Stamp) : WriteCall :=
  ⟨did, spaceRef, writes, swapCommit, stamp⟩

namespace WriteCall

variable (call : WriteCall)

/-- Whether the write is made here; if not, the repo lives on its author's PDS and the write
is forwarded. -/
def writesHere (s : SpaceStore) (space : HostedSpace) : Except AppError Bool := do
  let _ ← s.requireMembership space.toSpace call.did.val true
  call.writes.forM (·.checkAllowed space)
  let mode := (s.readRepoState space.id call.did.val).elim .polyfill RepoState.hostMode
  if mode.isAuthoritativeHere then
    checkSwapCommit space.revision call.swapCommit
    return true
  else return false

def enter (s : SpaceStore) : Except AppError (Option HostedSpace) := do
  let space ← s.resolveSpace call.spaceRef
  return if ← call.writesHere s space then some space else none

def transact (crypto : Crypto) (backend : Writers.DatabaseBackend) (space : Space)
    (s : SpaceStore) : Except AppError SpaceStore := do
  let (applied, s) ← SpaceStore.applyOps crypto backend space call.did.val call.writes s
  s.commitWrite crypto space call.did.val call.stamp applied

end WriteCall

/-- One call by itself. A call that fails changes nothing: its transaction is rolled back. -/
def SpaceStore.perform (crypto : Crypto) (backend : Writers.DatabaseBackend) (s : SpaceStore)
    (call : WriteCall) : SpaceStore :=
  match call.enter s with
  | .ok (some space) =>
    match call.transact crypto backend space.toSpace s with
    | .ok s' => s'
    | .error _ => s
  | _ => s

def SpaceStore.performAll (crypto : Crypto) (backend : Writers.DatabaseBackend)
    (start : SpaceStore) (calls : List WriteCall) : SpaceStore :=
  calls.foldl (perform crypto backend) start

end HappyView.Spaces
