import HappyView.Foundation.Json
import HappyView.Scopes.Permissions
import HappyView.Spaces.Repo

/-!
# The read endpoints of a space

`getRecord`, `listRecords` and `getBlob` of a space. Each identifies the caller, resolves the
space and asks for the caller's membership; then they look records up and check the caller's
access to the author's repo, in different orders.
-/

namespace HappyView.Spaces.ReadRoutes

open HappyView.Foundation HappyView.Scopes

structure Claims where
  did : String
  clientKey : Option String
  dpopKeyId : Option String
  deriving DecidableEq

structure XrpcClaims where
  identity : Option Claims
  spaceCredential : Option String
  spaceAudience : Option String
  deriving DecidableEq

structure RecordRow extends SpaceRecord where
  uri : String
  indexedAt : String
  deriving DecidableEq

structure Db where
  tables : Tables
  /-- The `authority_did` column of the spaces, by id. -/
  authorityDid : String → String
  records : List RecordRow

abbrev Blob := String × List UInt8

structure Services where
  backend : Writers.DatabaseBackend
  fromStr : String → Except String Json
  peekCredentialSub : String → Option String
  verifySpaceCredential : Space → String → Except AppError String
  getDpopClientId : String → Except AppError String
  getDpopSessionScopes : String → String → Except AppError (Option String)
  urldecode : String → Option String
  encodeCursor : String → String → String
  decodeCursor : String → Option (String × String)
  fetchSpaceBlob : String → String → Except AppError Blob

variable (sv : Services) (db : Db) (claims : XrpcClaims)

/-! ## Identity and membership -/

def resolveSpace (spaceRef : String) : Except AppError Space := do
  let uri ← SpaceUri.parse spaceRef
  require (.notFound "Space not found")
    (← db.tables.getSpaceByAddress uri.did uri.typeNsid uri.skey)

def requireAuthOrCredential : Except AppError String :=
  match claims.identity, claims.spaceCredential with
  | some identity, _ => .ok identity.did
  | none, some token => do
    let spaceUri ← require (.auth "invalid space credential") (sv.peekCredentialSub token)
    sv.verifySpaceCredential (← resolveSpace db spaceUri) token
  | none, none => .error (.auth "This endpoint requires authentication")

def requireMembership (space : Space) (did : String) (requireWrite : Bool)
    (spaceCredential : Option String) : Except AppError MemberAccess :=
  match spaceCredential with
  | some token => do
    let _ ← sv.verifySpaceCredential space token
    ensure (.forbidden "Write access is required for this action") !requireWrite
    return ⟨true, false, false⟩
  | none => do
    let access ← require (.forbidden "You are not a member of this space")
      (← db.tables.isMember space.id did)
    ensure (.forbidden "Write access is required for this action")
      (!requireWrite || access.canWrite)
    return access

def admitCaller (spaceRef : String) : Except AppError (String × Space × MemberAccess) := do
  let did ← requireAuthOrCredential sv db claims
  let space ← resolveSpace db spaceRef
  let membership ← requireMembership sv db space did false claims.spaceCredential
  return (did, space, membership)

/-! ## Access to a repo -/

/-- A request with a credential must be addressed to the DID it is for. -/
def requireAudience (expected : String) : Except AppError Unit :=
  ensure (.xrpcError 401 "BadSpaceAudience" ("request is not addressed to " ++ expected))
    (claims.spaceCredential.isNone || claims.spaceAudience = some expected)

/-- The app's grant, where the session has scopes at all. -/
def requireSpaceScope (identity : Claims) (space : Space) (target : SpaceTarget) :
    Except AppError Unit :=
  match identity.clientKey, identity.dpopKeyId with
  | some clientKey, some dpopKeyId => do
    let apiClientId ← sv.getDpopClientId clientKey
    match ← sv.getDpopSessionScopes apiClientId dpopKeyId with
    | none => return ()
    | some scopes =>
      let authority := db.authorityDid space.id
      ensure (.forbidden ("this session is not authorized for this space: it needs a space: " ++
        "grant covering " ++ space.typeNsid ++ "?authority=" ++ authority ++ "&skey=" ++
        space.skey ++ ". Scopes are fixed when a session is created, so this needs a new " ++
        "authorization."))
        ((ScopePermissions.parse scopes).allowsSpaceForUser sv.urldecode identity.did
          space.typeNsid authority space.skey target)
  | _, _ => .ok ()

/-- Both gates on a space read: the member list, then the app's grant. -/
def authorizeSpaceRead (callerDid targetRepoDid : String) (space : Space)
    (membership : MemberAccess) (hasCredential : Bool) : Except AppError Unit := do
  checkReadAccess callerDid targetRepoDid membership hasCredential
  if hasCredential then requireAudience claims targetRepoDid
  else match claims.identity with
    | none => return ()
    | some identity =>
      requireSpaceScope sv db identity space
        (if callerDid = targetRepoDid then .readSelf else .read)

/-! ## Records -/

inductive RecordRepo where
  | author (did : String)
  /-- This DID's own, or the lowest author's. -/
  | prefer (did : String)

def parseRecordRow (row : RecordRow) : Except AppError (RecordRow × Json) :=
  match sv.fromStr row.record with
  | .ok record => .ok (row, record)
  | .error e => .error (.internal ("invalid record JSON: " ++ e))

def selectRow (spaceId : String) (repo : RecordRepo) (collection rkey : String) :
    Option RecordRow :=
  let rows := db.records.filter fun row =>
    row.spaceId = spaceId ∧ row.collection = collection ∧ row.rkey = rkey
  match repo with
  | .author did => rows.find? (·.authorDid = did)
  | .prefer did => (rows.find? (·.authorDid = did)).or
      (rows.insertionSort fun a b => a.authorDid ≤ b.authorDid).head?

def getSpaceRecordByParts (spaceId : String) (repo : RecordRepo) (collection rkey : String) :
    Except AppError (Option (RecordRow × Json)) :=
  (selectRow db spaceId repo collection rkey).mapM (parseRecordRow sv)

def RecordRow.position (row : RecordRow) : String ×ₗ String := toLex (row.indexedAt, row.uri)

/-- `LIMIT`: SQLite reads a negative one as no limit, Postgres refuses it. -/
def limitRows (limit : Int) (rows : List RecordRow) : Except AppError (List RecordRow) :=
  if 0 ≤ limit then .ok (rows.take limit.toNat)
  else match sv.backend with
    | .sqlite => .ok rows
    | .postgres => .error (.internal "failed to list space records: LIMIT must not be negative")

def listSpaceRecords (spaceId : String) (repo collection : Option String) (limit : Int)
    (cursor : Option String) (reverse : Bool) :
    Except AppError (List (RecordRow × Json) × Option String) := do
  let after := (cursor.bind sv.decodeCursor).map toLex
  let before (a b : String ×ₗ String) := if reverse then b < a else a < b
  let rows := db.records.filter fun row =>
    (row.spaceId = spaceId ∧ repo.all (row.authorDid = ·)) ∧
      (collection.all (row.collection = ·) ∧ after.all (before · row.position))
  let rows := rows.insertionSort fun a b => ¬ before b.position a.position
  let records ← (← limitRows sv limit rows).mapM (parseRecordRow sv)
  let next := if (records.length : Int) = limit then
    records.getLast?.map fun (row, _) => sv.encodeCursor row.indexedAt row.uri else none
  return (records, next)

/-- What the pattern of `blob_link_pattern` matches, whose `LIKE` does not look at the case of
ASCII letters on SQLite. -/
def mentionsBlob (cid : String) (row : RecordRow) : Bool :=
  let fold := fun c : Char => if sv.backend = .sqlite then c.toLower else c
  ("\"$link\":\"" ++ cid ++ "\"").toList.map fold <:+: row.record.toList.map fold

def findBlobAuthorDid (spaceId cid : String) : Option String :=
  (db.records.find? fun row => row.spaceId = spaceId ∧ mentionsBlob sv cid row).map (·.authorDid)

/-! ## Endpoints -/

structure GetRecordQuery where
  space : String
  repo : Option String
  collection : String
  rkey : String
  deriving DecidableEq

structure ListRecordsQuery where
  space : String
  repo : Option String
  collection : Option String
  limit : Option Int
  cursor : Option String
  reverse : Option Bool
  includeValues : Option Bool
  deriving DecidableEq

structure GetSpaceBlobQuery where
  space : String
  cid : String
  deriving DecidableEq

structure ListedRecord where
  collection : String
  rkey : String
  cid : String
  value : Option Json

inductive Response where
  | record (uri cid : String) (value : Json)
  | records (records : List ListedRecord) (cursor : Option String)
  | blob (blob : Blob)

/-- A credential is addressed to the repo it reads, and a `read_self` member can read only their
own, so either names the repo when the query does not. -/
def recordRepo (did : String) (membership : MemberAccess) (repo : Option String) : RecordRepo :=
  match repo, claims.spaceAudience with
  | some repo, _ => .author repo
  | none, some audience =>
    if claims.spaceCredential.isSome then .author audience
    else if membership.restrictedToOwnRecords then .author did
    else .prefer did
  | none, none => if membership.restrictedToOwnRecords then .author did else .prefer did

def getRecord (query : GetRecordQuery) : Except AppError Response := do
  let (did, space, membership) ← admitCaller sv db claims query.space
  let found ← getSpaceRecordByParts sv db space.id (recordRepo claims did membership query.repo)
    query.collection query.rkey
  let (row, record) ← require (.notFound "Record not found") found
  authorizeSpaceRead sv db claims did row.authorDid space membership claims.spaceCredential.isSome
  return .record row.uri row.cid record

def listRecords (query : ListRecordsQuery) : Except AppError Response := do
  let (did, space, membership) ← admitCaller sv db claims query.space
  let hasCredential := claims.spaceCredential.isSome
  let authority := db.authorityDid space.id
  requireAudience claims (query.repo.getD authority)
  let repo := if !hasCredential && membership.restrictedToOwnRecords then some did
    else query.repo.or (if hasCredential then none else some did)
  authorizeSpaceRead sv db claims did (repo.getD authority) space membership hasCredential
  let limit := min (query.limit.getD 50) 100
  let (records, cursor) ← listSpaceRecords sv db space.id repo query.collection limit query.cursor
    (query.reverse.getD false)
  let includeValues := query.includeValues.getD false
  return .records (records.map fun (row, record) =>
    ⟨row.collection, row.rkey, row.cid, if includeValues then some record else none⟩) cursor

def getSpaceBlob (query : GetSpaceBlobQuery) : Except AppError Response := do
  let (did, space, membership) ← admitCaller sv db claims query.space
  let authorDid ← require (.notFound "Blob not found in this space")
    (findBlobAuthorDid sv db space.id query.cid)
  authorizeSpaceRead sv db claims did authorDid space membership claims.spaceCredential.isSome
  return .blob (← sv.fetchSpaceBlob authorDid query.cid)

inductive Request where
  | getRecord (query : GetRecordQuery)
  | listRecords (query : ListRecordsQuery)
  | getSpaceBlob (query : GetSpaceBlobQuery)
  deriving DecidableEq

def Request.space : Request → String
  | .getRecord query => query.space
  | .listRecords query => query.space
  | .getSpaceBlob query => query.space

def respond : Request → Except AppError Response
  | .getRecord query => getRecord sv db claims query
  | .listRecords query => listRecords sv db claims query
  | .getSpaceBlob query => getSpaceBlob sv db claims query

end HappyView.Spaces.ReadRoutes
