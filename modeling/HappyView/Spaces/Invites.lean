import HappyView.Foundation.FiniteMap
import HappyView.Spaces.Members
import HappyView.Spaces.Writers

/-!
# Invites

Whoever has an invite's token may join its space, until the uses are taken or the invite is
revoked or expired. `accept_invite` reads the invite and checks it without a lock. `claim_invite`
then takes a use and inserts the member in one transaction, which checks the limit and the
revocation again.

The accepts and revocations of one invite run concurrently. Each statement is a step. From the
update of the invite's row to the end of its transaction an accept holds the row, and on SQLite it
holds the database from the beginning of the transaction.
-/

namespace HappyView.Spaces.Invites

open HappyView.Foundation
open HappyView.Spaces.Writers (DatabaseBackend)

/-! ## The tables -/

structure InviteTerms where
  id : String
  spaceId : String
  tokenHash : String
  createdBy : String
  access : MemberAccess
  maxUses : Option Int
  expiresAt : Option String
  deriving DecidableEq

structure SpaceInvite extends InviteTerms where
  uses : Int
  revoked : Bool
  deriving DecidableEq

def createInvite (terms : InviteTerms) : SpaceInvite := { terms with uses := 0, revoked := false }

/-- A row of `happyview_space_members`. Its id is a new UUID, here the number of the accept. -/
structure InvitedMember extends SpaceMember where
  id : Nat
  grantedBy : Option String
  deriving DecidableEq

def getMember (members : List InvitedMember) (spaceId did : String) : Option InvitedMember :=
  members.find? fun member => member.spaceId = spaceId ∧ member.did = did

/-- `UPDATE happyview_space_invites SET uses = uses + 1 WHERE id = ? AND revoked = 0 AND
(max_uses IS NULL OR uses < max_uses)`; `none` if no row was affected. -/
def takeUse (invite : SpaceInvite) (id : String) : Option SpaceInvite :=
  if invite.id = id ∧ invite.revoked = false ∧ invite.maxUses.all (invite.uses < ·) then
    some { invite with uses := invite.uses + 1 }
  else none

/-- `INSERT .. ON CONFLICT (space_id, member_did) DO NOTHING`; `none` if no row was affected. -/
def insertMember (members : List InvitedMember) (member : InvitedMember) :
    Option (List InvitedMember) :=
  if (getMember members member.spaceId member.did).isSome then none else some (members ++ [member])

def revokeInvite (invite : SpaceInvite) (spaceId id : String) : SpaceInvite :=
  if invite.id = id ∧ invite.spaceId = spaceId then { invite with revoked := true } else invite

/-! ## Checks before the claim -/

/-- The world an invite is in: the token hash, the parser of stored times (to a count of
nanoseconds) and the spaces. -/
structure Setting where
  backend : DatabaseBackend
  sha256 : String → String
  parseRfc3339 : String → Option Int
  spaces : List Space
  terms : InviteTerms
  members : List InvitedMember

variable (w : Setting)

def Setting.inviteExpired (stored : String) (now : Int) : Bool :=
  match w.parseRfc3339 stored with
  | some expiry => now > expiry
  | none => true

/-- What `accept_invite` checks of the invite it has read. -/
def Setting.checkInvite (invite : SpaceInvite) (token : String) (now : Int) :
    Except AppError Unit := do
  ensure (.notFound "Invalid invite token") (w.sha256 token = invite.tokenHash)
  ensure (.badRequest "This invite has been revoked") (!invite.revoked)
  ensure (.badRequest "This invite has reached its maximum uses")
    (invite.maxUses.all (invite.uses < ·))
  ensure (.badRequest "This invite has expired") (!invite.expiresAt.any (w.inviteExpired · now))

def Setting.readSpace (member : InvitedMember) : Except AppError (String × MemberAccess) := do
  let space ← Tables.getSpace ⟨w.spaces, []⟩ member.spaceId
  let space ← require (.internal "space vanished after member insert") space
  return ("at://" ++ "/".intercalate [space.did, "space", space.typeNsid, space.skey],
    member.access)

/-! ## Accepts -/

structure Claim where
  inviteId : String
  member : InvitedMember
  deriving DecidableEq

def invitedMember (i : Nat) (did : String) (invite : SpaceInvite) (createdAt : String) :
    InvitedMember where
  id := i
  spaceId := invite.spaceId
  did := did
  access := invite.access
  isDelegation := false
  grantedBy := some invite.createdBy
  createdAt := createdAt

inductive Accept where
  | checked (did : String) (invite : SpaceInvite)
  | ready (claim : Claim) (attempt : Nat)
  | begun (claim : Claim) (attempt : Nat)
  | taken (claim : Claim) (attempt : Nat)
  | inserted (claim : Claim) (attempt : Nat)
  | joined (member : InvitedMember)
  | refused (error : AppError)
  | claimFailed (error : AppError)
  /-- It has returned an error from a commit that took effect. -/
  | unacknowledged (member : InvitedMember) (error : AppError)
  | unread (member : InvitedMember) (error : AppError)
  | accepted (member : InvitedMember) (answer : String × MemberAccess)
  deriving DecidableEq

def busyRetryAttempts : Nat := 3

def failedClaim (message : String) : Accept :=
  .claimFailed (.internal ("failed to accept invite: " ++ message))

/-- `retry_on_busy`, after an error of the given time. -/
def afterBusy (claim : Claim) (attempt : Nat) (message : String) : Accept :=
  if attempt < busyRetryAttempts then .ready claim (attempt + 1) else failedClaim message

structure State where
  invite : SpaceInvite
  members : List InvitedMember
  /-- The accept that holds the invite's row or the database. -/
  lock : Option Nat := none
  accepts : AList fun _ : Nat => Accept := ∅

inductive Action where
  | lookup (i : Nat) (did token : String) (now : Int)
  | lookupFails (i : Nat) (message : String)
  | readMember (i : Nat) (createdAt : String)
  | begin (i : Nat)
  | takeUse (i : Nat)
  | insertMember (i : Nat)
  | commit (i : Nat)
  /-- The transaction is committed, and the answer is lost. -/
  | commitLost (i : Nat) (message : String)
  /-- A statement of the claim fails in a way that is tried again. -/
  | busy (i : Nat) (message : String)
  | fails (i : Nat) (message : String)
  | readSpace (i : Nat)
  | readSpaceFails (i : Nat) (message : String)
  | revoke (spaceId id : String)
  deriving DecidableEq

namespace State

def put (s : State) (i : Nat) (accept : Accept) : State :=
  { s with accepts := s.accepts.insert i accept }

def release (s : State) (i : Nat) : State :=
  { s with lock := if s.lock = some i then none else s.lock }

def join (s : State) (member : InvitedMember) : State :=
  { s with
    invite := { s.invite with uses := s.invite.uses + 1 }
    members := s.members ++ [member] }

end State

def step (s : State) : Action → Option State
  | .lookup i did token now =>
    if i ∈ s.accepts then none
    else match w.checkInvite s.invite token now with
      | .ok () => some (s.put i (.checked did s.invite))
      | .error e => some (s.put i (.refused e))
  | .lookupFails i message =>
    if i ∈ s.accepts then none
    else some (s.put i (.refused (.internal ("failed to get invite: " ++ message))))
  | .readMember i createdAt => match s.accepts.lookup i with
    | some (.checked did invite) =>
      if (getMember s.members invite.spaceId did).isSome then
        some (s.put i (.refused (.conflict "You are already a member of this space")))
      else some (s.put i (.ready ⟨invite.id, invitedMember i did invite createdAt⟩ 1))
    | _ => none
  | .begin i => match s.accepts.lookup i with
    | some (.ready claim attempt) => match w.backend with
      | .sqlite =>
        if s.lock = none then some { s.put i (.begun claim attempt) with lock := some i } else none
      | .postgres => some (s.put i (.begun claim attempt))
    | _ => none
  | .takeUse i => match s.accepts.lookup i with
    | some (.begun claim attempt) =>
      if s.lock = none ∨ s.lock = some i then
        match takeUse s.invite claim.inviteId with
        | some _ => some { s.put i (.taken claim attempt) with lock := some i }
        | none => some ((s.put i (.claimFailed (.badRequest
            "This invite has been revoked or has reached its maximum uses"))).release i)
      else none
    | _ => none
  | .insertMember i => match s.accepts.lookup i with
    | some (.taken claim attempt) => match insertMember s.members claim.member with
      | some _ => some (s.put i (.inserted claim attempt))
      | none => some ((s.put i
          (.claimFailed (.conflict "You are already a member of this space"))).release i)
    | _ => none
  | .commit i => match s.accepts.lookup i with
    | some (.inserted claim _) =>
      some (((s.join claim.member).put i (.joined claim.member)).release i)
    | _ => none
  | .commitLost i message => match s.accepts.lookup i with
    | some (.inserted claim _) => some (((s.join claim.member).put i (.unacknowledged claim.member
        (.internal ("failed to accept invite: " ++ message)))).release i)
    | _ => none
  | .busy i message => match s.accepts.lookup i with
    | some (.ready claim attempt) | some (.begun claim attempt) | some (.taken claim attempt)
    | some (.inserted claim attempt) => some ((s.put i (afterBusy claim attempt message)).release i)
    | _ => none
  | .fails i message => match s.accepts.lookup i with
    | some (.checked _ _) =>
      some (s.put i (.refused (.internal ("failed to get member: " ++ message))))
    | some (.ready _ _) | some (.begun _ _) | some (.taken _ _) | some (.inserted _ _) =>
      some ((s.put i (failedClaim message)).release i)
    | _ => none
  | .readSpace i => match s.accepts.lookup i with
    | some (.joined member) => match w.readSpace member with
      | .ok answer => some (s.put i (.accepted member answer))
      | .error e => some (s.put i (.unread member e))
    | _ => none
  | .readSpaceFails i message => match s.accepts.lookup i with
    | some (.joined member) =>
      some (s.put i (.unread member (.internal ("failed to get space: " ++ message))))
    | _ => none
  | .revoke spaceId id =>
    if s.lock = none then some { s with invite := revokeInvite s.invite spaceId id } else none

def desk : Machine State Action where
  start := { invite := createInvite w.terms, members := w.members }
  step := step w

end HappyView.Spaces.Invites
