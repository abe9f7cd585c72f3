import HappyView.Spaces.ReadRoutes

/-!
# What a confined reader learns

A member with `read_self`, or with no read access, is to learn nothing about the records of other
authors. Two states that differ in those only should then answer alike, by success or by the kind
of the error. `listRecords` does. `getRecord` and `getBlob` look the record up before they check
the access, so a record that is there is refused and one that is not there is not found.
-/

namespace HappyView

inductive ErrorKind where
  | auth
  | badRequest
  | conflict
  | forbidden
  | internal
  | notFound
  | xrpcError (code : String)
  deriving DecidableEq

def AppError.kind : AppError → ErrorKind
  | .auth _ => .auth
  | .badRequest _ => .badRequest
  | .conflict _ => .conflict
  | .forbidden _ => .forbidden
  | .internal _ => .internal
  | .notFound _ => .notFound
  | .xrpcError _ code _ => .xrpcError code

namespace Spaces.ReadRoutes

open HappyView.Foundation HappyView.Scopes

def outcome (sv : Services) (db : Db) (claims : XrpcClaims) (r : Request) :
    Except ErrorKind Response :=
  (respond sv db claims r).mapError AppError.kind

/-! ## States that look alike to the caller -/

def isOwn (did spaceId : String) (row : RecordRow) : Bool :=
  row.spaceId = spaceId ∧ row.authorDid = did

structure SameView (did spaceId : String) (db db' : Db) : Prop where
  tables : db'.tables = db.tables
  authorityDid : db'.authorityDid = db.authorityDid
  own : db'.records.filter (isOwn did spaceId) = db.records.filter (isOwn did spaceId)

/-- The request is made by a member of the space who may read their own records at most, and
without a space credential. -/
structure ConfinedReader (db : Db) (claims : XrpcClaims) (caller : Claims) (space : Space)
    (access : MemberAccess) (r : Request) : Prop where
  identity : claims.identity = some caller
  noCredential : claims.spaceCredential = none
  resolved : resolveSpace db r.space = .ok space
  member : db.tables.isMember space.id caller.did = .ok (some access)
  confined : access.readSelf = true ∨ access.read = false

/-- The caller may not even read their own records: by the member list, or for want of a grant. -/
def OwnReadRefused (sv : Services) (db : Db) (caller : Claims) (space : Space)
    (access : MemberAccess) : Prop :=
  access.canRead = false ∨
    ∃ e, requireSpaceScope sv db caller space .readSelf = .error e ∧ e.kind = .forbidden

/-- A listing; a record of the caller's repo, by name, by `read_self` or because the caller has one
in its place; a blob that the caller's repo mentions, if the caller may not read it anyway. -/
def Unrevealing (sv : Services) (db : Db) (caller : Claims) (space : Space)
    (access : MemberAccess) : Request → Prop
  | .listRecords _ => True
  | .getRecord query => match query.repo with
    | some repo => repo = caller.did
    | none => access.restrictedToOwnRecords = true ∨
        ∃ row ∈ db.records, isOwn caller.did space.id row = true ∧
          row.collection = query.collection ∧ row.rkey = query.rkey
  | .getSpaceBlob query =>
    (∃ row ∈ db.records, isOwn caller.did space.id row = true ∧
      mentionsBlob sv query.cid row = true) ∧ OwnReadRefused sv db caller space access

section Confinement

variable {sv : Services} {db db' : Db} {claims : XrpcClaims} {caller : Claims} {space : Space}
  {access : MemberAccess} {r : Request}

theorem ConfinedReader.admitted (reader : ConfinedReader db claims caller space access r)
    (view : SameView caller.did space.id db db') :
    admitCaller sv db' claims r.space = .ok (caller.did, space, access) := by
  have resolved : resolveSpace db' r.space = .ok space := by
    rw [← reader.resolved]
    unfold resolveSpace
    rw [view.tables]
  have member : db'.tables.isMember space.id caller.did = .ok (some access) := by
    rw [view.tables, reader.member]
  have caller_did : requireAuthOrCredential sv db' claims = .ok caller.did := by
    unfold requireAuthOrCredential
    rw [reader.identity]
  have membership :
      requireMembership sv db' space caller.did false claims.spaceCredential = .ok access := by
    rw [reader.noCredential]
    simp [requireMembership, member, require, ensure, bind, Except.bind, pure, Except.pure]
  simp [admitCaller, caller_did, resolved, membership, bind, Except.bind, pure, Except.pure]

theorem ConfinedReader.checkReadAccess_other
    (reader : ConfinedReader db claims caller space access r) {target : String}
    (other : target ≠ caller.did) :
    ∃ message, checkReadAccess caller.did target access false = .error (.forbidden message) := by
  unfold checkReadAccess MemberAccess.canRead MemberAccess.restrictedToOwnRecords
  cases reads : access.read with
  | false => exact ⟨_, rfl⟩
  | true =>
    have restricted : access.readSelf = true := by
      simpa [reads] using reader.confined
    simp [restricted, Ne.symm other]

theorem ConfinedReader.authorize_other (reader : ConfinedReader db claims caller space access r)
    (sv : Services) (db' : Db) {target : String} (other : target ≠ caller.did) :
    ∃ message, authorizeSpaceRead sv db' claims caller.did target space access
      claims.spaceCredential.isSome = .error (.forbidden message) := by
  obtain ⟨message, refused⟩ := reader.checkReadAccess_other other
  refine ⟨message, ?_⟩
  rw [reader.noCredential]
  simp [authorizeSpaceRead, refused, bind, Except.bind]

theorem ConfinedReader.authorize_own (reader : ConfinedReader db claims caller space access r) :
    authorizeSpaceRead sv db' claims caller.did caller.did space access
      claims.spaceCredential.isSome =
        if access.canRead then requireSpaceScope sv db' caller space .readSelf
        else .error (.forbidden "you do not have read access to this space") := by
  rw [reader.noCredential]
  cases reads : access.canRead with
  | false => simp [authorizeSpaceRead, checkReadAccess, reads, bind, Except.bind]
  | true => simp [authorizeSpaceRead, checkReadAccess, reads, reader.identity, bind, Except.bind]

theorem authorizeSpaceRead_view (view : SameView caller.did space.id db db') (target : String)
    (hasCredential : Bool) :
    authorizeSpaceRead sv db' claims caller.did target space access hasCredential =
      authorizeSpaceRead sv db claims caller.did target space access hasCredential := by
  simp only [authorizeSpaceRead, requireSpaceScope, view.authorityDid]

/-! ## Lookups in the caller's repo -/

theorem find?_own {did spaceId : String} {f : RecordRow → Bool}
    (own : ∀ row, f row = true → isOwn did spaceId row = true) (rows : List RecordRow) :
    rows.find? f = (rows.filter (isOwn did spaceId)).find? f := by
  rw [List.find?_filter]
  congr 1
  funext row
  cases h : f row with
  | false => simp
  | true => simp [own row h]

theorem find?_view {did spaceId : String} (view : SameView did spaceId db db')
    {f : RecordRow → Bool} (own : ∀ row, f row = true → isOwn did spaceId row = true) :
    db'.records.find? f = db.records.find? f := by
  rw [find?_own own, view.own, ← find?_own own]

theorem isOwn_iff {did spaceId : String} {row : RecordRow} :
    isOwn did spaceId row = true ↔ row.spaceId = spaceId ∧ row.authorDid = did := by
  simp [isOwn]

theorem exists_own_view {did spaceId : String} (view : SameView did spaceId db db')
    {p : RecordRow → Prop} (found : ∃ row ∈ db.records, isOwn did spaceId row = true ∧ p row) :
    ∃ row ∈ db'.records, isOwn did spaceId row = true ∧ p row := by
  obtain ⟨row, mem, own, holds⟩ := found
  have kept : row ∈ db'.records.filter (isOwn did spaceId) := by
    rw [view.own]
    exact List.mem_filter.mpr ⟨mem, own⟩
  exact ⟨row, List.mem_of_mem_filter kept, own, holds⟩

theorem selectRow_author_view (view : SameView caller.did space.id db db')
    (collection rkey : String) :
    selectRow db' space.id (.author caller.did) collection rkey =
      selectRow db space.id (.author caller.did) collection rkey := by
  simp only [selectRow, List.find?_filter]
  rw [find?_view view]
  intro row h
  simp only [Bool.decide_and, Bool.and_eq_true, decide_eq_true_eq] at h
  exact isOwn_iff.mpr ⟨h.1.1, h.2⟩

theorem selectRow_prefer {did spaceId collection rkey : String}
    (own : ∃ row ∈ db.records, isOwn did spaceId row = true ∧
      row.collection = collection ∧ row.rkey = rkey) :
    selectRow db spaceId (.prefer did) collection rkey =
      selectRow db spaceId (.author did) collection rkey := by
  obtain ⟨row, mem, own, same⟩ := own
  obtain ⟨inSpace, byCaller⟩ := isOwn_iff.mp own
  have found : ((db.records.filter fun row => row.spaceId = spaceId ∧ row.collection = collection ∧
      row.rkey = rkey).find? (·.authorDid = did)).isSome = true := by
    rw [List.find?_isSome]
    exact ⟨row, List.mem_filter.mpr ⟨mem, by simp [inSpace, same]⟩, by simp [byCaller]⟩
  obtain ⟨first, found⟩ := Option.isSome_iff_exists.mp found
  simp only [selectRow, found, Option.some_or]

theorem ConfinedReader.recordRepo_none (reader : ConfinedReader db claims caller space access r) :
    recordRepo claims caller.did access none =
      if access.restrictedToOwnRecords then .author caller.did else .prefer caller.did := by
  cases audience : claims.spaceAudience <;> simp [recordRepo, audience, reader.noCredential]

theorem listSpaceRecords_view (view : SameView caller.did space.id db db')
    (collection : Option String) (limit : Int) (cursor : Option String) (reverse : Bool) :
    listSpaceRecords sv db' space.id (some caller.did) collection limit cursor reverse =
      listSpaceRecords sv db space.id (some caller.did) collection limit cursor reverse := by
  have rows (rest : RecordRow → Prop) [DecidablePred rest] :
      (db'.records.filter fun row => (row.spaceId = space.id ∧
        (some caller.did).all (row.authorDid = ·)) ∧ rest row) =
      db.records.filter fun row => (row.spaceId = space.id ∧
        (some caller.did).all (row.authorDid = ·)) ∧ rest row := by
    have split (records : List RecordRow) : (records.filter fun row => (row.spaceId = space.id ∧
        (some caller.did).all (row.authorDid = ·)) ∧ rest row) =
        (records.filter (isOwn caller.did space.id)).filter (fun row => rest row) := by
      rw [List.filter_filter]
      refine List.filter_congr fun row _ => ?_
      simp [isOwn, Bool.and_comm]
    rw [split, split, view.own]
  simp only [listSpaceRecords, rows]

/-! ## Requests that tell nothing -/

theorem SameView.refl (did spaceId : String) (db : Db) : SameView did spaceId db db :=
  ⟨rfl, rfl, rfl⟩

theorem ConfinedReader.listRecords_view {query : ListRecordsQuery}
    (reader : ConfinedReader db claims caller space access (.listRecords query))
    (view : SameView caller.did space.id db db') :
    listRecords sv db' claims query = listRecords sv db claims query := by
  have here : admitCaller sv db' claims query.space = _ := reader.admitted view
  have there : admitCaller sv db claims query.space = _ := reader.admitted (.refl _ _ _)
  simp only [listRecords, here, there, authorizeSpaceRead_view view, view.authorityDid,
    reader.noCredential, bind, Except.bind, MemberAccess.restrictedToOwnRecords]
  cases restricted : access.readSelf with
  | true => simp [listSpaceRecords_view view]
  | false =>
    have unread : access.read = false := by simpa [restricted] using reader.confined
    simp [authorizeSpaceRead, checkReadAccess, MemberAccess.canRead, unread, bind, Except.bind]

theorem ConfinedReader.getRecord_view {query : GetRecordQuery}
    (reader : ConfinedReader db claims caller space access (.getRecord query))
    (view : SameView caller.did space.id db db')
    (unrevealing : Unrevealing sv db caller space access (.getRecord query)) :
    getRecord sv db' claims query = getRecord sv db claims query := by
  have here : admitCaller sv db' claims query.space = _ := reader.admitted view
  have there : admitCaller sv db claims query.space = _ := reader.admitted (.refl _ _ _)
  have lookup : selectRow db' space.id (recordRepo claims caller.did access query.repo)
      query.collection query.rkey =
      selectRow db space.id (recordRepo claims caller.did access query.repo)
        query.collection query.rkey := by
    cases repo : query.repo with
    | some named =>
      obtain rfl : named = caller.did := by simpa [Unrevealing, repo] using unrevealing
      exact selectRow_author_view view _ _
    | none =>
      simp only [Unrevealing, repo] at unrevealing
      rw [reader.recordRepo_none]
      cases restricted : access.restrictedToOwnRecords with
      | true => exact selectRow_author_view view _ _
      | false =>
        have own := unrevealing.resolve_left (by simp [restricted])
        simp only [Bool.false_eq_true, if_false]
        rw [selectRow_prefer (exists_own_view view own), selectRow_prefer own,
          selectRow_author_view view]
  simp only [getRecord, getSpaceRecordByParts, here, there, lookup, authorizeSpaceRead_view view,
    bind, Except.bind]

theorem ConfinedReader.outcome_blob {query : GetSpaceBlobQuery}
    (reader : ConfinedReader db claims caller space access (.getSpaceBlob query))
    (view : SameView caller.did space.id db db')
    (unrevealing : Unrevealing sv db caller space access (.getSpaceBlob query)) :
    outcome sv db' claims (.getSpaceBlob query) = .error .forbidden := by
  have here : admitCaller sv db' claims query.space = _ := reader.admitted view
  obtain ⟨mentioned, refused⟩ := unrevealing
  obtain ⟨row, mem, own, mentions⟩ := exists_own_view view mentioned
  obtain ⟨inSpace, -⟩ := isOwn_iff.mp own
  have found : (db'.records.find? fun row => row.spaceId = space.id ∧
      mentionsBlob sv query.cid row).isSome = true := by
    rw [List.find?_isSome]
    exact ⟨row, mem, by simp [inSpace, mentions]⟩
  obtain ⟨first, found⟩ := Option.isSome_iff_exists.mp found
  have author : findBlobAuthorDid sv db' space.id query.cid = some first.authorDid := by
    rw [findBlobAuthorDid, found, Option.map_some]
  have forbidden : ∃ e, authorizeSpaceRead sv db' claims caller.did first.authorDid space access
      claims.spaceCredential.isSome = .error e ∧ e.kind = .forbidden := by
    by_cases own : first.authorDid = caller.did
    · rw [own, authorizeSpaceRead_view view, reader.authorize_own]
      rcases refused with unread | ⟨e, scope, kind⟩
      · rw [unread]
        exact ⟨_, rfl, rfl⟩
      · cases reads : access.canRead with
        | true => exact ⟨e, by simpa using scope, kind⟩
        | false => exact ⟨_, rfl, rfl⟩
    · obtain ⟨message, other⟩ := reader.authorize_other sv db' own
      exact ⟨_, other, rfl⟩
  obtain ⟨e, refusal, kind⟩ := forbidden
  simp [outcome, respond, getSpaceBlob, here, author, refusal, require, bind, Except.bind,
    Except.mapError, kind]

/-! ## Requests that tell -/

def alone (did spaceId : String) (db : Db) : Db :=
  { db with records := db.records.filter (isOwn did spaceId) }

def joined (did spaceId : String) (db : Db) (row : RecordRow) : Db :=
  { db with records := row :: db.records.filter (isOwn did spaceId) }

theorem sameView_alone (did spaceId : String) (db : Db) :
    SameView did spaceId db (alone did spaceId db) :=
  ⟨rfl, rfl, by simp [alone, List.filter_filter]⟩

theorem sameView_joined {did : String} (spaceId : String) (db : Db) {row : RecordRow}
    (other : row.authorDid ≠ did) : SameView did spaceId db (joined did spaceId db row) := by
  have foreign : isOwn did spaceId row = false := by simp [isOwn, other]
  exact ⟨rfl, rfl, by simp [joined, foreign, List.filter_filter]⟩

def stranger (did : String) : String := did ++ "x"

theorem stranger_ne (did : String) : stranger did ≠ did := by
  intro same
  have lengths := congrArg String.length same
  simp [stranger] at lengths

section Record

variable {query : GetRecordQuery}
  (reader : ConfinedReader db claims caller space access (.getRecord query))

include reader

theorem ConfinedReader.outcome_record_none (view : SameView caller.did space.id db db')
    (absent : selectRow db' space.id (recordRepo claims caller.did access query.repo)
      query.collection query.rkey = none) :
    outcome sv db' claims (.getRecord query) = .error .notFound := by
  have here : admitCaller sv db' claims query.space = _ := reader.admitted view
  simp [outcome, respond, getRecord, getSpaceRecordByParts, here, absent, require, bind,
    Except.bind, pure, Except.pure, Except.mapError, AppError.kind]

theorem ConfinedReader.outcome_record_other (view : SameView caller.did space.id db db')
    {row : RecordRow} (other : row.authorDid ≠ caller.did)
    (present : selectRow db' space.id (recordRepo claims caller.did access query.repo)
      query.collection query.rkey = some row) :
    outcome sv db' claims (.getRecord query) ≠ .error .notFound := by
  have here : admitCaller sv db' claims query.space = _ := reader.admitted view
  obtain ⟨message, refused⟩ := reader.authorize_other sv db' other
  cases parsed : sv.fromStr row.record with
  | ok record =>
    simp [outcome, respond, getRecord, getSpaceRecordByParts, here, present, parseRecordRow,
      parsed, refused, require, bind, Except.bind, Except.mapError, AppError.kind]
  | error e =>
    simp [outcome, respond, getRecord, getSpaceRecordByParts, here, present, parseRecordRow,
      parsed, bind, Except.bind, Except.mapError, AppError.kind]

def strangersRecord (spaceId author collection rkey record : String) : RecordRow :=
  ⟨⟨spaceId, author, collection, rkey, record, ""⟩, "", ""⟩

/-- Two states that look alike have different outcomes. -/
def Revealed (sv : Services) (db : Db) (claims : XrpcClaims) (did spaceId : String) (r : Request) :
    Prop :=
  ∃ db₁ db₂, SameView did spaceId db db₁ ∧ SameView did spaceId db db₂ ∧
    outcome sv db₁ claims r ≠ outcome sv db₂ claims r

theorem ConfinedReader.record_reveals (row : RecordRow) (other : row.authorDid ≠ caller.did)
    (absent : selectRow (alone caller.did space.id db) space.id
      (recordRepo claims caller.did access query.repo) query.collection query.rkey = none)
    (present : selectRow (joined caller.did space.id db row) space.id
      (recordRepo claims caller.did access query.repo) query.collection query.rkey = some row) :
    Revealed sv db claims caller.did space.id (.getRecord query) := by
  have view := sameView_alone caller.did space.id db
  have view' := sameView_joined space.id db other
  refine ⟨_, _, view, view', ?_⟩
  rw [reader.outcome_record_none view absent]
  exact (reader.outcome_record_other view' other present).symm

theorem ConfinedReader.getRecord_reveals
    (revealing : ¬ Unrevealing sv db caller space access (.getRecord query)) :
    Revealed sv db claims caller.did space.id (.getRecord query) := by
  cases repo : query.repo with
  | some named =>
    have other : named ≠ caller.did := by simpa [Unrevealing, repo] using revealing
    let row := strangersRecord space.id named query.collection query.rkey ""
    refine reader.record_reveals row other ?_ ?_
    · simp only [repo, recordRepo, selectRow, alone, List.find?_eq_none]
      intro row mem
      have own := (List.mem_filter.mp (List.mem_of_mem_filter mem)).2
      simp [(isOwn_iff.mp own).2, Ne.symm other]
    · simp [repo, recordRepo, selectRow, joined, row, strangersRecord]
  | none =>
    simp only [Unrevealing, repo, not_or, not_exists, not_and] at revealing
    obtain ⟨unrestricted, absent⟩ := revealing
    have empty : ((db.records.filter (isOwn caller.did space.id)).filter fun row =>
        row.spaceId = space.id ∧ row.collection = query.collection ∧
          row.rkey = query.rkey) = [] := by
      refine List.filter_eq_nil_iff.mpr fun row mem => ?_
      obtain ⟨mem, own⟩ := List.mem_filter.mp mem
      have missing := absent row mem own
      simpa using fun _ same => missing same
    let row := strangersRecord space.id (stranger caller.did) query.collection query.rkey ""
    refine reader.record_reveals row (stranger_ne _) ?_ ?_
    all_goals rw [repo, reader.recordRepo_none, if_neg unrestricted]
    · simp only [selectRow, alone]
      rw [empty]
      rfl
    · simp only [selectRow, joined]
      rw [List.filter_cons_of_pos (by simp [row, strangersRecord]), empty]
      simp [row, strangersRecord, stranger_ne]

end Record

theorem ConfinedReader.outcome_blob_author {query : GetSpaceBlobQuery}
    (reader : ConfinedReader db claims caller space access (.getSpaceBlob query))
    (view : SameView caller.did space.id db db') (author : Option String)
    (found : findBlobAuthorDid sv db' space.id query.cid = author) :
    outcome sv db' claims (.getSpaceBlob query) = (do
      let authorDid ← require (.notFound "Blob not found in this space") author
      authorizeSpaceRead sv db claims caller.did authorDid space access
        claims.spaceCredential.isSome
      return Response.blob (← sv.fetchSpaceBlob authorDid query.cid)).mapError AppError.kind := by
  have here : admitCaller sv db' claims query.space = _ := reader.admitted view
  subst found
  simp only [outcome, respond, getSpaceBlob, here, authorizeSpaceRead_view view, bind, Except.bind]

theorem ConfinedReader.getSpaceBlob_reveals {query : GetSpaceBlobQuery}
    (reader : ConfinedReader db claims caller space access (.getSpaceBlob query))
    (fetches : ∀ cid e, sv.fetchSpaceBlob caller.did cid = .error e → e.kind ≠ .forbidden)
    (revealing : ¬ Unrevealing sv db caller space access (.getSpaceBlob query)) :
    Revealed sv db claims caller.did space.id (.getSpaceBlob query) := by
  let row := strangersRecord space.id (stranger caller.did) "" ""
    ("\"$link\":\"" ++ query.cid ++ "\"")
  have view := sameView_alone caller.did space.id db
  have view' : SameView caller.did space.id db (joined caller.did space.id db row) :=
    sameView_joined space.id db (stranger_ne _)
  have mentions : mentionsBlob sv query.cid row = true := by
    simp [mentionsBlob, row, strangersRecord]
  have present : findBlobAuthorDid sv (joined caller.did space.id db row) space.id query.cid =
      some (stranger caller.did) := by
    have first : row.spaceId = space.id ∧ mentionsBlob sv query.cid row = true := ⟨rfl, mentions⟩
    simp only [findBlobAuthorDid, joined]
    rw [List.find?_cons_of_pos (by exact decide_eq_true first)]
    rfl
  have refused : outcome sv (joined caller.did space.id db row) claims (.getSpaceBlob query) =
      .error .forbidden := by
    obtain ⟨message, other⟩ := reader.authorize_other sv db (stranger_ne _)
    rw [reader.outcome_blob_author view' _ present]
    simp [require, other, bind, Except.bind, Except.mapError, AppError.kind]
  refine ⟨_, _, view, view', ?_⟩
  rw [refused]
  cases author : findBlobAuthorDid sv (alone caller.did space.id db) space.id query.cid with
  | none =>
    rw [reader.outcome_blob_author view _ author]
    simp [require, bind, Except.bind, Except.mapError, AppError.kind]
  | some did =>
    -- Only the caller's own record can have been found.
    obtain ⟨row, found, rfl⟩ := Option.map_eq_some_iff.mp author
    obtain ⟨mem, own⟩ := List.mem_filter.mp (List.mem_of_find?_eq_some found)
    have fits := List.find?_some found
    obtain ⟨-, mentions⟩ := of_decide_eq_true fits
    obtain ⟨-, byCaller⟩ := isOwn_iff.mp own
    have allowed : ¬ OwnReadRefused sv db caller space access :=
      fun refused => revealing ⟨⟨row, mem, own, mentions⟩, refused⟩
    obtain ⟨reads, granted⟩ := not_or.mp allowed
    rw [reader.outcome_blob_author view _ author, byCaller]
    simp only [require, bind, Except.bind, reader.authorize_own, Bool.not_eq_false] at reads ⊢
    rw [if_pos reads]
    cases scope : requireSpaceScope sv db caller space .readSelf with
    | error e =>
      have kind : e.kind ≠ .forbidden := fun same => granted ⟨e, scope, same⟩
      simpa [Except.mapError] using kind
    | ok =>
      cases fetched : sv.fetchSpaceBlob caller.did query.cid with
      | error e => simpa [Except.mapError] using fetches query.cid e fetched
      | ok blob => simp [Except.mapError, pure, Except.pure]

end Confinement

/-! ## The criterion -/

/-- A confined reader learns nothing about other authors' records from a request exactly if it is
one of the unrevealing ones. -/
theorem read_confined_iff {sv : Services} {db : Db} {claims : XrpcClaims} {caller : Claims}
    {space : Space} {access : MemberAccess} {r : Request}
    (reader : ConfinedReader db claims caller space access r)
    (fetches : ∀ cid e, sv.fetchSpaceBlob caller.did cid = .error e → e.kind ≠ .forbidden) :
    (∀ db₁ db₂, SameView caller.did space.id db db₁ → SameView caller.did space.id db db₂ →
      outcome sv db₁ claims r = outcome sv db₂ claims r) ↔
        Unrevealing sv db caller space access r := by
  constructor
  · intro alike
    by_contra revealing
    have revealed : Revealed sv db claims caller.did space.id r := by
      cases r with
      | getRecord query => exact reader.getRecord_reveals revealing
      | listRecords query => exact absurd trivial revealing
      | getSpaceBlob query => exact reader.getSpaceBlob_reveals fetches revealing
    obtain ⟨db₁, db₂, view₁, view₂, differ⟩ := revealed
    exact differ (alike db₁ db₂ view₁ view₂)
  · intro unrevealing db₁ db₂ view₁ view₂
    cases r with
    | getRecord query =>
      simp only [outcome, respond, reader.getRecord_view view₁ unrevealing,
        reader.getRecord_view view₂ unrevealing]
    | listRecords query =>
      simp only [outcome, respond, reader.listRecords_view view₁, reader.listRecords_view view₂]
    | getSpaceBlob query =>
      rw [reader.outcome_blob view₁ unrevealing, reader.outcome_blob view₂ unrevealing]

/-! ## A space with a confined reader -/

def noServices : Services where
  backend := .sqlite
  fromStr text := .ok (.string text)
  peekCredentialSub _ := none
  verifySpaceCredential _ _ := .error (.auth "invalid space credential")
  getDpopClientId _ := .error (.auth "Invalid client")
  getDpopSessionScopes _ _ := .ok none
  urldecode := some
  encodeCursor indexedAt uri := indexedAt ++ "|" ++ uri
  decodeCursor _ := none
  fetchSpaceBlob _ _ := .ok ("image/png", [])

def forum : Space := ⟨"sp1", "did:plc:authority", "com.example.forum", "main", none⟩

/-- A forum whose one member has `read_self`, and in which nobody has written. -/
def forumDb : Db where
  tables := ⟨[forum], [⟨"sp1", "did:plc:alice", ⟨true, false, true⟩, false, "2026-01-01"⟩]⟩
  authorityDid _ := "did:plc:authority"
  records := []

def alice : Claims := ⟨"did:plc:alice", none, none⟩

def bobsRecord : RecordRow :=
  ⟨⟨"sp1", "did:plc:bob", "com.example.post", "1", "\x7b\"$link\":\"bafyblob\"\x7d", "bafy1"⟩,
    "at://did:plc:authority/space/com.example.forum/main/did:plc:bob/com.example.post/1",
    "2026-01-02"⟩

def forumUri : String := "at://did:plc:authority/space/com.example.forum/main"

def listOwn : Request := .listRecords ⟨forumUri, none, none, none, none, none, none⟩

theorem read_confined_iff_listOwn :
    outcome noServices forumDb ⟨some alice, none, none⟩ listOwn =
      outcome noServices { forumDb with records := [bobsRecord] } ⟨some alice, none, none⟩
        listOwn := by
  have reader : ConfinedReader forumDb ⟨some alice, none, none⟩ alice forum ⟨true, false, true⟩
      listOwn :=
    ⟨rfl, rfl, by decide +kernel, by decide +kernel, .inl rfl⟩
  have fetches : ∀ cid e, noServices.fetchSpaceBlob alice.did cid = .error e →
      e.kind ≠ .forbidden := by
    intro cid e fetched
    cases fetched
  exact (read_confined_iff reader fetches).mpr trivial forumDb
    { forumDb with records := [bobsRecord] } ⟨rfl, rfl, rfl⟩ ⟨rfl, rfl, by decide +kernel⟩

/-- The member asks for another's record, and for the blob it mentions. -/
theorem read_self_reveals :
    SameView "did:plc:alice" "sp1" forumDb { forumDb with records := [bobsRecord] } ∧
    getRecord noServices forumDb ⟨some alice, none, none⟩
        ⟨forumUri, some "did:plc:bob", "com.example.post", "1"⟩ =
      .error (.notFound "Record not found") ∧
    getRecord noServices { forumDb with records := [bobsRecord] } ⟨some alice, none, none⟩
        ⟨forumUri, some "did:plc:bob", "com.example.post", "1"⟩ =
      .error (.forbidden "read_self access only permits reading your own repo") ∧
    getSpaceBlob noServices forumDb ⟨some alice, none, none⟩ ⟨forumUri, "bafyblob"⟩ =
      .error (.notFound "Blob not found in this space") ∧
    getSpaceBlob noServices { forumDb with records := [bobsRecord] } ⟨some alice, none, none⟩
        ⟨forumUri, "bafyblob"⟩ =
      .error (.forbidden "read_self access only permits reading your own repo") := by
  refine ⟨⟨rfl, rfl, by decide +kernel⟩, ?_, ?_, ?_, ?_⟩
  all_goals rfl

end Spaces.ReadRoutes

end HappyView
