import HappyView.Spaces.Jwt
import HappyView.Spaces.Members

/-!
# Space credentials

A credential is issued to a user whom the read policy of the space lets in. It is a signed
token, and a row with its `jti` is stored beside it. Verifying a credential checks the token
and that no row with its `jti` is revoked; it does not look at the members again.
-/

namespace HappyView.Spaces

open HappyView.Foundation

structure SpaceCredentialClaims where
  iss : String
  sub : String
  iat : Nat
  exp : Nat
  jti : String
  cnf : Option String
  deriving DecidableEq

inductive Policy where
  | publicPolicy
  | memberList
  | managingApp (managingApp : String)
  deriving DecidableEq

inductive AppAccess where
  | openAccess
  | allowList (allowed : List String)
  deriving DecidableEq

structure GatedSpace extends Space where
  authorityDid : String
  readPolicy : Policy
  appAccess : AppAccess
  deriving DecidableEq

def GatedSpace.uri (space : GatedSpace) : String :=
  "at://" ++ "/".intercalate [space.did, "space", space.typeNsid, space.skey]

/-- A stored credential. Rows from before the column was there have no `jti`. -/
structure CredentialRow where
  spaceId : String
  issuedTo : String
  jti : Option String
  revoked : Bool
  deriving DecidableEq

/-! ## Issuing -/

def defaultCredentialTtlSecs : Nat := 10 * 60

def checkAppAccess (space : GatedSpace) (attestedClientId : Option String) :
    Except AppError Unit :=
  match space.appAccess with
  | .openAccess => .ok ()
  | .allowList allowed => do
    let clientId ← require (.auth "space requires client attestation") attestedClientId
    ensure (.forbidden "this app is not authorized to access this space")
      (allowed.any (· = clientId))

/-- Whether the read policy lets the user in; `answer` is what the managing app says. A
credential reads the whole space, so own-records-only members do not qualify. -/
def policyAllows (t : Tables) (space : GatedSpace) (subjectDid : String)
    (answer : Except AppError Bool) : Except AppError Bool :=
  match space.readPolicy with
  | .publicPolicy => .ok true
  | .memberList => do
    match ← t.isMember space.id subjectDid with
    | some access => return access.canRead && !access.restrictedToOwnRecords
    | none => return false
  | .managingApp _ => answer

def checkMintPolicy (t : Tables) (space : GatedSpace) (subjectDid : String)
    (answer : Except AppError Bool) : Except AppError Unit := do
  ensure (.forbidden "managing app denied access to this space")
    (← policyAllows t space subjectDid answer)

def mintClaims (space : GatedSpace) (boundKey : Option String) (now : Nat) (jti : String) :
    SpaceCredentialClaims where
  iss := space.authorityDid
  sub := space.uri
  iat := now
  exp := now + defaultCredentialTtlSecs
  jti := jti
  cnf := boundKey

/-! ## Verifying -/

def credentialKind : JwtKind where
  name := "credential"
  key := "the issuer's signing key"
  typ := "atproto-space-credential+jwt"

structure CredentialPrimitives (Bytes Key : Type) extends JwtPrimitives Bytes Key where
  parseClaims : Bytes → Option SpaceCredentialClaims
  sign : SpaceCredentialClaims → String
  open_sign : ∀ key claims found,
    openJwt toJwtPrimitives credentialKind parseClaims key (sign claims) = .ok found →
      found = claims

def credentialClockSkewSecs : Nat := 5

def maxCredentialTtlSecs : Nat := 60 * 60

def checkCredentialLifetime (claims : SpaceCredentialClaims) (now : Nat) :
    Except AppError Unit := do
  ensure (.auth "credential has no jti") (!claims.jti.isEmpty)
  ensure (.auth "credential was issued in the future") (claims.iat ≤ now + credentialClockSkewSecs)
  ensure (.auth "credential lifetime is invalid")
    (claims.iat < claims.exp && claims.exp - claims.iat ≤ maxCredentialTtlSecs)

def isSpaceCredentialJtiRevoked (rows : List CredentialRow) (spaceId jti : String) : Bool :=
  rows.any fun row => row.spaceId = spaceId && row.jti = some jti && row.revoked

section

variable {Bytes Key : Type} (P : CredentialPrimitives Bytes Key)

def verifyCredentialWithKey (token : String) (key : SpaceVerifyingKey Key) (now : Nat) :
    Except AppError SpaceCredentialClaims := do
  let claims ← openJwt P.toJwtPrimitives credentialKind P.parseClaims key token
  ensure (.auth "credential has expired") (now < claims.exp)
  checkCredentialLifetime claims now
  return claims

/-- `key` is the space's key, as it is found. -/
def verifySpaceCredential (rows : List CredentialRow) (hasKeyring : Bool)
    (key : Except AppError (SpaceVerifyingKey Key)) (space : GatedSpace) (token : String)
    (now : Nat) : Except AppError SpaceCredentialClaims := do
  ensure (.internal "TOKEN_ENCRYPTION_KEY is required for space credentials") hasKeyring
  let claims ← verifyCredentialWithKey P token (← key) now
  ensure (.xrpcError 400 "InvalidCredential" "space credential is for a different space")
    (claims.sub = space.uri)
  ensure (.xrpcError 401 "CredentialRevoked" "space credential has been revoked")
    (!isSpaceCredentialJtiRevoked rows space.id claims.jti)
  return claims

end

/-! ## Taking access away -/

def revokeSpaceCredentialsForMember (rows : List CredentialRow) (spaceId did : String) :
    List CredentialRow :=
  rows.map fun row =>
    if row.spaceId = spaceId ∧ row.issuedTo = did ∧ row.revoked = false then
      { row with revoked := true }
    else row

def getMember (members : List SpaceMember) (spaceId did : String) : Option SpaceMember :=
  members.find? fun member => member.spaceId = spaceId && member.did = did

/-- Insert the row, or replace the read and write access and the kind of the row that is
there. -/
def addMember (members : List SpaceMember) (member : SpaceMember) : List SpaceMember :=
  match getMember members member.spaceId member.did with
  | none => members ++ [member]
  | some _ => members.map fun held =>
    if held.spaceId = member.spaceId ∧ held.did = member.did then
      { held with
        access := { member.access with readSelf := held.access.readSelf }
        isDelegation := member.isDelegation }
    else held

def deleteMember (members : List SpaceMember) (spaceId did : String) : List SpaceMember :=
  members.filter fun member => ¬ (member.spaceId = spaceId ∧ member.did = did)

/-- The row that `put_member` writes, from the one it has read. Without an access given it
keeps the one there is, or gives read. -/
def putRow (existing : Option SpaceMember) (spaceId did : String) (access : Option MemberAccess)
    (isDelegation : Option Bool) (now : String) : SpaceMember where
  spaceId := spaceId
  did := did
  access :=
    { access.getD ((existing.map (·.access)).getD ⟨true, false, false⟩) with
      readSelf := (existing.map (·.access.readSelf)).getD false }
  isDelegation := isDelegation.getD false
  createdAt := now

end HappyView.Spaces
