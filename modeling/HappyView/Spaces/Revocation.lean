import HappyView.Foundation.FiniteMap
import HappyView.Foundation.Machine
import HappyView.Spaces.Credentials

/-!
# Taking credentials away with the access

`remove_member`, and `put_member` without read access, revoke the credentials of a member.
Issuing one reads the members, mints a token and stores a row, and nothing holds these
together: a row that is stored after the revocation is not revoked.

`CredentialDesk` is the state of one such removal together with any number of issuances and
with other calls that change the members or revoke credentials.
-/

namespace HappyView.Spaces

open HappyView.Foundation

structure Issuance where
  space : GatedSpace
  subject : String
  boundKey : Option String

structure IssuedTo where
  spaceId : String
  did : String
  claims : SpaceCredentialClaims
  deriving DecidableEq

inductive RemovalCall where
  | removeMember
  | putMember (access : Option MemberAccess) (isDelegation : Option Bool)

inductive RemovalPhase where
  | waiting
  /-- `remove_member` has revoked the credentials and not yet deleted the member. -/
  | revokedFirst
  /-- `put_member` has the row to write. -/
  | read (row : SpaceMember)
  /-- `put_member` has written the row and not yet revoked the credentials. -/
  | written
  | returned
  /-- `put_member` has left the member read access. -/
  | ended
  deriving DecidableEq

structure CredentialDesk where
  tables : Tables
  rows : List CredentialRow := []
  flights : AList fun _ : Nat => Issuance := ∅
  issued : List IssuedTo := []
  phase : RemovalPhase := .waiting

inductive CredentialAction where
  | check (id : Nat) (space : GatedSpace) (subject : String) (clientId boundKey : Option String)
      (answer : Except AppError Bool)
  | store (id : Nat) (now : Nat) (jti : String)
  | abandon (id : Nat)
  | members (members : List SpaceMember)
  | revoke (spaceId did : String)
  | removal (now : String)

namespace CredentialDesk

variable (call : RemovalCall) (spaceId did : String)

def revokeMember (d : CredentialDesk) : CredentialDesk :=
  { d with rows := revokeSpaceCredentialsForMember d.rows spaceId did }

def setMembers (d : CredentialDesk) (members : List SpaceMember) : CredentialDesk :=
  { d with tables := { d.tables with members := members } }

def removalStep (d : CredentialDesk) (now : String) : Option CredentialDesk :=
  match call, d.phase with
  | .removeMember, .waiting => some { d.revokeMember spaceId did with phase := .revokedFirst }
  | .removeMember, .revokedFirst => some
      { d.setMembers (deleteMember d.tables.members spaceId did) with phase := .returned }
  | .putMember access isDelegation, .waiting =>
    let existing := getMember d.tables.members spaceId did
    some { d with phase := .read (putRow existing spaceId did access isDelegation now) }
  | .putMember _ _, .read row => some
      { d.setMembers (addMember d.tables.members row) with
        phase := if row.access.read then .ended else .written }
  | .putMember _ _, .written => some { d.revokeMember spaceId did with phase := .returned }
  | _, _ => none

def step (d : CredentialDesk) : CredentialAction → Option CredentialDesk
  | .check id space subject clientId boundKey answer =>
    match checkAppAccess space clientId, checkMintPolicy d.tables space subject answer with
    | .ok _, .ok _ => some { d with flights := d.flights.insert id ⟨space, subject, boundKey⟩ }
    | _, _ => none
  | .store id now jti => (d.flights.lookup id).map fun flight =>
    { d with
      flights := d.flights.erase id
      rows := d.rows ++ [⟨flight.space.id, flight.subject, some jti, false⟩]
      issued := d.issued ++
        [⟨flight.space.id, flight.subject, mintClaims flight.space flight.boundKey now jti⟩] }
  | .abandon id => some { d with flights := d.flights.erase id }
  | .members members => some (d.setMembers members)
  | .revoke spaceId did => some (d.revokeMember spaceId did)
  | .removal now => removalStep call spaceId did d now

def machine (start : Tables) : Machine CredentialDesk CredentialAction where
  start := { tables := start }
  step := step call spaceId did

/-! ## Revocation -/

section Accepted

variable {Bytes Key : Type} (P : CredentialPrimitives Bytes Key)

/-- Once the removal has returned, no credential of the member is accepted at any time. -/
def NoneAccepted (d : CredentialDesk) : Prop :=
  d.phase = .returned → ∀ credential ∈ d.issued,
    credential.spaceId = spaceId → credential.did = did →
    ∀ (space : GatedSpace), space.id = spaceId → ∀ hasKeyring key now claims,
      verifySpaceCredential P d.rows hasKeyring key space (P.sign credential.claims) now ≠
        .ok claims

end Accepted

def hasRevoked : RemovalPhase → Bool
  | .revokedFirst | .returned => true
  | _ => false

def revokesNext : RemovalCall → RemovalPhase → Bool
  | .removeMember, .waiting | .putMember _ _, .written => true
  | _, _ => false

/-- When the removal revokes the credentials, no issuance to the member is past its checks;
and from then on the read policy does not let the member in. -/
def Apart (d : CredentialDesk) : CredentialAction → Prop
  | .check _ space subject _ _ answer =>
    hasRevoked d.phase = true → space.id = spaceId → subject = did →
      policyAllows d.tables space subject answer ≠ .ok true
  | .removal _ => revokesNext call d.phase = true → ∀ entry ∈ d.flights.entries,
      ¬ (entry.2.space.id = spaceId ∧ entry.2.subject = did)
  | _ => True

instance (d : CredentialDesk) : ∀ action, Decidable (Apart call spaceId did d action)
  | .check .. => inferInstanceAs (Decidable (_ → _ → _ → _ ≠ _))
  | .removal _ => inferInstanceAs (Decidable (_ → ∀ entry ∈ _, _))
  | .store .. | .abandon _ | .members _ | .revoke .. => .isTrue trivial

structure Inv (d : CredentialDesk) : Prop where
  stored : ∀ credential ∈ d.issued, ∃ row ∈ d.rows, row.spaceId = credential.spaceId ∧
    row.issuedTo = credential.did ∧ row.jti = some credential.claims.jti
  revoked : hasRevoked d.phase = true → ∀ row ∈ d.rows, row.spaceId = spaceId →
    row.issuedTo = did → row.revoked = true
  none : hasRevoked d.phase = true → ∀ id flight, d.flights.lookup id = some flight →
    ¬ (flight.space.id = spaceId ∧ flight.subject = did)

section Steps

variable {call : RemovalCall} {spaceId did : String} {d d' : CredentialDesk}

theorem mem_revoke {rows : List CredentialRow} {row : CredentialRow} {s m : String}
    (h : row ∈ revokeSpaceCredentialsForMember rows s m) :
    ∃ old ∈ rows, row.spaceId = old.spaceId ∧ row.issuedTo = old.issuedTo ∧ row.jti = old.jti ∧
      (row.revoked = true ∨
        row.revoked = old.revoked ∧ ¬ (row.spaceId = s ∧ row.issuedTo = m)) := by
  obtain ⟨old, mem, rfl⟩ := List.mem_map.mp h
  refine ⟨old, mem, ?_⟩
  split
  · simp
  · rename_i other
    cases revoked : old.revoked <;> simp_all

theorem revoke_mem {rows : List CredentialRow} {row : CredentialRow} {s m : String}
    (h : row ∈ rows) : ∃ new ∈ revokeSpaceCredentialsForMember rows s m,
      new.spaceId = row.spaceId ∧ new.issuedTo = row.issuedTo ∧ new.jti = row.jti := by
  refine ⟨_, List.mem_map_of_mem h, ?_⟩
  split <;> simp

theorem Inv.keep (inv : Inv spaceId did d) {tables : Tables} {phase : RemovalPhase}
    (same : hasRevoked phase = true → hasRevoked d.phase = true) :
    Inv spaceId did { d with tables := tables, phase := phase } where
  stored := inv.stored
  revoked later := inv.revoked (same later)
  none later := inv.none (same later)

theorem Inv.revoke (inv : Inv spaceId did d) (s m : String) :
    Inv spaceId did (d.revokeMember s m) where
  stored credential mem := by
    obtain ⟨row, held, same⟩ := inv.stored credential mem
    obtain ⟨new, mem, space, issuedTo, jti⟩ := revoke_mem (s := s) (m := m) held
    exact ⟨new, mem, space.trans same.1, issuedTo.trans same.2.1, jti.trans same.2.2⟩
  revoked later row mem here own := by
    obtain ⟨old, held, space, issuedTo, -, revoked | ⟨same, -⟩⟩ := mem_revoke mem
    · exact revoked
    · rw [same]
      exact inv.revoked later old held (space ▸ here) (issuedTo ▸ own)
  none := inv.none

theorem Inv.revokeOwn (inv : Inv spaceId did d) {phase : RemovalPhase}
    (apart : ∀ entry ∈ d.flights.entries,
      ¬ (entry.2.space.id = spaceId ∧ entry.2.subject = did)) :
    Inv spaceId did { d.revokeMember spaceId did with phase := phase } where
  stored := (inv.revoke spaceId did).stored
  revoked _ row mem here own := by
    obtain ⟨-, -, -, -, -, revoked | ⟨-, other⟩⟩ := mem_revoke mem
    · exact revoked
    · exact absurd ⟨here, own⟩ other
  none _ id flight held := apart ⟨id, flight⟩ (AList.mem_lookup_iff.mp held)

theorem Inv.removal (inv : Inv spaceId did d) {now : String}
    (apart : Apart call spaceId did d (.removal now))
    (h : removalStep call spaceId did d now = some d') : Inv spaceId did d' := by
  unfold removalStep at h
  split at h
  · rename_i phase
    cases h
    exact inv.revokeOwn (apart (by rw [phase]; rfl))
  · rename_i phase
    cases h
    exact inv.keep fun _ => by rw [phase]; rfl
  · cases h
    exact inv.keep nofun
  · cases h
    refine inv.keep fun later => ?_
    split at later <;> cases later
  · rename_i phase
    cases h
    exact inv.revokeOwn (apart (by rw [phase]; rfl))
  · cases h

theorem Inv.step {action : CredentialAction} (inv : Inv spaceId did d)
    (apart : Apart call spaceId did d action)
    (h : step call spaceId did d action = some d') : Inv spaceId did d' := by
  cases action with
  | check id space subject clientId boundKey answer =>
    simp only [CredentialDesk.step] at h
    split at h
    · rename_i allowed
      cases h
      refine ⟨inv.stored, inv.revoked, fun later other flight held => ?_⟩
      rcases lookup_insert_cases held with ⟨-, rfl⟩ | held
      · rintro ⟨sameSpace, own⟩
        obtain ⟨granted, allows, passed⟩ := bind_eq_ok.mp allowed
        rw [ensure_eq_ok] at passed
        exact apart later sameSpace own (passed ▸ allows)
      · exact inv.none later other flight held
    · cases h
  | store id now jti =>
    obtain ⟨flight, held, rfl⟩ := Option.map_eq_some_iff.mp h
    refine ⟨fun credential mem => ?_, fun later row mem here own => ?_,
      fun later other found held' => ?_⟩
    · rcases List.mem_append.mp mem with old | new
      · obtain ⟨row, stored, same⟩ := inv.stored credential old
        exact ⟨row, List.mem_append_left _ stored, same⟩
      · rw [List.mem_singleton.mp new]
        exact ⟨_, List.mem_append_right _ (List.mem_singleton_self _), rfl, rfl, rfl⟩
    · rcases List.mem_append.mp mem with old | new
      · exact inv.revoked later row old here own
      · rw [List.mem_singleton.mp new] at here own
        exact absurd ⟨here, own⟩ (inv.none later id flight held)
    · exact inv.none later other found (lookup_erase_some held').2
  | abandon id =>
    cases h
    exact ⟨inv.stored, inv.revoked, fun later other found held =>
      inv.none later other found (lookup_erase_some held).2⟩
  | members members =>
    cases h
    exact inv.keep id
  | revoke s m =>
    cases h
    exact inv.revoke s m
  | removal now => exact inv.removal apart h

theorem verifySpaceCredential_ne_ok {Bytes Key : Type} (P : CredentialPrimitives Bytes Key)
    {rows : List CredentialRow} {row : CredentialRow} {minted claims : SpaceCredentialClaims}
    {space : GatedSpace} {hasKeyring : Bool} {key : Except AppError (SpaceVerifyingKey Key)}
    {now : Nat} (mem : row ∈ rows) (here : row.spaceId = space.id)
    (jti : row.jti = some minted.jti) (revoked : row.revoked = true) :
    verifySpaceCredential P rows hasKeyring key space (P.sign minted) now ≠ .ok claims := by
  intro accepted
  obtain ⟨-, -, accepted⟩ := bind_eq_ok.mp accepted
  obtain ⟨key, -, accepted⟩ := bind_eq_ok.mp accepted
  obtain ⟨found, opened, accepted⟩ := bind_eq_ok.mp accepted
  obtain ⟨-, -, accepted⟩ := bind_eq_ok.mp accepted
  obtain ⟨⟨⟩, live, -⟩ := bind_eq_ok.mp accepted
  obtain ⟨opened, fromToken, checked⟩ := bind_eq_ok.mp opened
  obtain ⟨-, -, checked⟩ := bind_eq_ok.mp checked
  obtain ⟨-, -, checked⟩ := bind_eq_ok.mp checked
  have same : found = minted :=
    (Except.ok.inj checked).symm.trans (P.open_sign key minted opened fromToken)
  rw [same, ensure_eq_ok] at live
  have listed : isSpaceCredentialJtiRevoked rows space.id minted.jti = true :=
    List.any_eq_true.mpr ⟨row, mem, by simp [here, jti, revoked]⟩
  simp [listed] at live

end Steps

/-- In every run in which no issuance to the member overlaps the removal, no credential of
the member is accepted once the removal has returned. -/
theorem removal_revokes {Bytes Key : Type} (P : CredentialPrimitives Bytes Key)
    (call : RemovalCall) (spaceId did : String) (start : Tables)
    (actions : List CredentialAction) (d : CredentialDesk)
    (apart : (machine call spaceId did start).Along (Apart call spaceId did) actions)
    (run : (machine call spaceId did start).run actions = some d) :
    NoneAccepted spaceId did P d := by
  have inv : Inv spaceId did d := by
    refine Machine.induct_along (P := Inv spaceId did) ?_ ?_ apart run
    · exact ⟨by simp [machine], nofun, nofun⟩
    · exact fun d action d' inv ok step => inv.step ok step
  intro returned credential mem here own space sameSpace hasKeyring key now claims
  have later : hasRevoked d.phase = true := by
    rw [returned]
    rfl
  obtain ⟨row, stored, rowSpace, issuedTo, jti⟩ := inv.stored credential mem
  have revoked := inv.revoked later row stored (rowSpace.trans here) (issuedTo.trans own)
  exact verifySpaceCredential_ne_ok P stored (rowSpace.trans (here.trans sameSpace.symm)) jti
    revoked

/-! ## Overlapping runs -/

def clubSpace : GatedSpace :=
  ⟨⟨"s1", "did:plc:s", "app.club", "main", none⟩, "did:plc:s", .memberList, .openAccess⟩

def clubTables : Tables where
  spaces := [clubSpace.toSpace]
  members := [⟨"s1", "did:plc:m", ⟨true, false, false⟩, false, "2026-01-01"⟩]

def clubClaims : SpaceCredentialClaims := mintClaims clubSpace none 1700000000 "j"

def clubJwt : CredentialPrimitives String Unit where
  decode := some
  parseHeader _ := some ⟨some "ES256", some credentialKind.typ, none⟩
  verify _ _ _ := true
  parseClaims text := if text = "c" then some clubClaims else none
  sign claims := if claims = clubClaims then "h.c.s" else ""
  open_sign key claims found opened := by
    split at opened
    · rename_i minted
      cases key with
      | p256 key => exact (Except.ok.inj opened).symm.trans minted.symm
      | k256 key => cases opened
    · cases opened

def asks : CredentialAction := .check 1 clubSpace "did:plc:m" none none (.ok false)

def isStored : CredentialAction := .store 1 1700000000 "j"

def proceeds : CredentialAction := .removal "2026-01-02"

def takeRead : RemovalCall := .putMember (some ⟨false, false, false⟩) none

theorem removal_revokes_issued : ∃ d,
    (machine .removeMember "s1" "did:plc:m" clubTables).run [asks, isStored, proceeds, proceeds] =
      some d ∧ d.phase = .returned ∧ d.issued = [⟨"s1", "did:plc:m", clubClaims⟩] ∧
      NoneAccepted "s1" "did:plc:m" clubJwt d := by
  have ends : ((machine .removeMember "s1" "did:plc:m" clubTables).run
      [asks, isStored, proceeds, proceeds]).any (fun d => decide
        (d.phase = .returned ∧ d.issued = [⟨"s1", "did:plc:m", clubClaims⟩])) = true := by
    decide +kernel
  obtain ⟨d, run, ends⟩ := (Option.any_eq_true _ _).mp ends
  obtain ⟨returned, issued⟩ := of_decide_eq_true ends
  refine ⟨d, run, returned, issued, removal_revokes clubJwt _ _ _ clubTables _ d ?_ run⟩
  decide +kernel

def leftOver (d : CredentialDesk) : Bool :=
  decide (d.phase = .returned ∧ d.issued = [⟨"s1", "did:plc:m", clubClaims⟩] ∧
    d.rows = [⟨"s1", "did:plc:m", some "j", false⟩])

theorem exists_accepted {call : RemovalCall} {actions : List CredentialAction}
    (ends : ((machine call "s1" "did:plc:m" clubTables).run actions).any leftOver = true) :
    ∃ d, (machine call "s1" "did:plc:m" clubTables).run actions = some d ∧
      ¬ NoneAccepted "s1" "did:plc:m" clubJwt d := by
  obtain ⟨d, ran, ends⟩ := (Option.any_eq_true _ _).mp ends
  obtain ⟨returned, issued, rows⟩ := of_decide_eq_true ends
  refine ⟨d, ran, fun revoked => ?_⟩
  have accepted : verifySpaceCredential clubJwt [⟨"s1", "did:plc:m", some "j", false⟩] true
      (.ok (.p256 ())) clubSpace (clubJwt.sign clubClaims) 1700000001 = .ok clubClaims := by
    decide +kernel
  have issued : ⟨"s1", "did:plc:m", clubClaims⟩ ∈ d.issued := by simp [issued]
  have refused := revoked returned _ issued rfl rfl clubSpace rfl true (.ok (.p256 ())) 1700000001
    clubClaims
  rw [rows] at refused
  exact refused accepted

/-- The credential is stored after the removal has revoked what there was, and it is
accepted when the removal has returned. -/
theorem removal_overtaken :
    (∃ d, (machine .removeMember "s1" "did:plc:m" clubTables).run
        [asks, proceeds, isStored, proceeds] = some d ∧
      ¬ NoneAccepted "s1" "did:plc:m" clubJwt d) ∧
    (∃ d, (machine .removeMember "s1" "did:plc:m" clubTables).run
        [proceeds, asks, isStored, proceeds] = some d ∧
      ¬ NoneAccepted "s1" "did:plc:m" clubJwt d) ∧
    ∃ d, (machine takeRead "s1" "did:plc:m" clubTables).run
        [asks, proceeds, proceeds, proceeds, isStored] = some d ∧
      ¬ NoneAccepted "s1" "did:plc:m" clubJwt d := by
  refine ⟨exists_accepted ?_, exists_accepted ?_, exists_accepted ?_⟩
  all_goals decide +kernel

end CredentialDesk

end HappyView.Spaces
