import HappyView.Spaces.Jwt
import HappyView.Spaces.Repo
import HappyView.Timestamp

/-!
# Exchanging delegation tokens

`getSpaceCredential` takes a delegation token and gives a space credential for it. A token is
to be exchanged once: its issuer and `jti` are kept until it expires, as a text, and at each
exchange the rows whose text is before that of the current time are deleted first.

DID documents come from outside the repository: a request carries what it finds. So do the texts
of times, which are chrono's.
-/

namespace HappyView.Spaces

open HappyView.Foundation Timestamp

structure DelegationTokenClaims where
  iss : String
  sub : String
  aud : String
  iat : UInt64
  exp : UInt64
  jti : String
  deriving DecidableEq

structure VerificationMethod where
  id : String
  publicKeyMultibase : Option String

structure DelegationPrimitives (Bytes Key : Type) extends JwtPrimitives Bytes Key where
  parseClaims : Bytes → Option DelegationTokenClaims
  multikeyToSpaceKey : String → Except AppError (SpaceVerifyingKey Key)
  chrono : Chrono

structure IssuedCredential where
  token : String
  expiresAt : String
  deriving DecidableEq

def Reading := { t : Instant // 0 ≤ t.secs ∧ t.secs ≤ 253402300799 }

/-- A request with what it finds: the spaces, the keys, the DID documents, and the clock when
the token is verified and when it is used. -/
structure CredentialRequest (Key : Type) where
  authorization : Option String
  boundKey : Except AppError String
  spaceRef : String
  store : SpaceStore
  hasKeyring : Bool
  localKey : Option Key
  resolveDidDocument : String → Except AppError (List VerificationMethod)
  verifiedAt : Nat
  usedAt : Reading
  /-- What follows once the token is used: the client attestation and the credential. -/
  issue : Space → DelegationTokenClaims → String → Except AppError IssuedCredential

def delegationTokenKind : JwtKind where
  name := "delegation token"
  key := "the signer's key"
  typ := "atproto-space-delegation+jwt"

section Verify

variable {Bytes Key : Type} (P : DelegationPrimitives Bytes Key)

def verifyDelegationTokenWithKey (token : String) (key : SpaceVerifyingKey Key)
    (acceptedAud : List String) (now : Nat) : Except AppError DelegationTokenClaims := do
  let claims ← openJwt P.toJwtPrimitives delegationTokenKind P.parseClaims key token
  ensure (.auth "delegation token has expired") (now < claims.exp.toNat)
  ensure (.auth "delegation token audience does not match this host")
    (acceptedAud.any (· = claims.aud))
  return claims

def peekJwt (token : String) : Option (JwtHeader × DelegationTokenClaims) :=
  match Text.split '.' token with
  | header64 :: payload64 :: _ => do
    let header ← P.parseHeader (← P.decode header64)
    let claims ← P.parseClaims (← P.decode payload64)
    return (header, claims)
  | _ => none

def verifyAccountDelegationToken (token : String)
    (resolveDidDocument : String → Except AppError (List VerificationMethod))
    (acceptedAud : List String) (now : Nat) : Except AppError DelegationTokenClaims := do
  let (header, claims) ← require (.auth "invalid delegation token format") (peekJwt P token)
  let named := header.kid.getD "#atproto"
  let fragment := if Text.startsWith "#" named then named else "#" ++ named
  let methods ← resolveDidDocument claims.iss
  let method ← require (.auth ("delegation token signer has no " ++ fragment ++ " key"))
    (methods.find? fun v => v.id = fragment || v.id = claims.iss ++ fragment)
  let multibase ← require (.auth (fragment ++ " verification method missing publicKeyMultibase"))
    method.publicKeyMultibase
  let key ← P.multikeyToSpaceKey multibase
  verifyDelegationTokenWithKey P token key acceptedAud now

def invalidDelegationToken (message : String) : AppError :=
  .xrpcError 400 "InvalidDelegationToken" message

/-- This instance's own key is tried first, then the account's. -/
def verifyToken (r : CredentialRequest Key) (token : String) (acceptedAud : List String) :
    Except AppError DelegationTokenClaims :=
  let byLocalKey := r.localKey.map fun key =>
    verifyDelegationTokenWithKey P token (.k256 key) acceptedAud r.verifiedAt
  match byLocalKey with
  | some (.ok claims) => .ok claims
  | _ =>
    (verifyAccountDelegationToken P token r.resolveDidDocument acceptedAud r.verifiedAt).mapError
      fun e => invalidDelegationToken e.display

def checkRequest (r : CredentialRequest Key) :
    Except AppError (Space × DelegationTokenClaims × String) := do
  let token ← require (.auth "a delegation token is required")
    (r.authorization.bind (Text.strip "Bearer "))
  let boundKey ← r.boundKey
  ensure (.internal "TOKEN_ENCRYPTION_KEY is required for space credentials") r.hasKeyring
  let space ← r.store.resolveSpace r.spaceRef
  let claims ← verifyToken P r token
    [space.did ++ "#atproto_space_host", space.did ++ "#atproto_pds"]
  ensure (invalidDelegationToken "delegation token is for a different space")
    (claims.sub = "at://" ++ "/".intercalate [space.did, "space", space.typeNsid, space.skey])
  return (space.toSpace, claims, boundKey)

end Verify

/-! ## Uses -/

/-- The expiry of each used token, by issuer and `jti`. -/
abbrev DelegationUses := AList fun _ : String × String => String

def asI64 (n : UInt64) : Int := n.toBitVec.toInt

/-- The text stored for a token; that of the current time if there is none for its expiry. -/
def expiresAt (C : Chrono) (exp : UInt64) (now : Instant) : String :=
  ((C.fromTimestamp (asI64 exp)).map C.rfc3339).getD (C.rfc3339 now)

def pruneUses (C : Chrono) (now : Instant) (uses : DelegationUses) : DelegationUses where
  entries := uses.entries.filter fun entry => ¬ entry.2 < C.rfc3339 now
  nodupKeys := uses.nodupKeys.sublist List.filter_sublist

def consumeDelegationToken (C : Chrono) (uses : DelegationUses) (issuer jti : String)
    (exp : UInt64) (now : Instant) : Bool × DelegationUses :=
  let uses := pruneUses C now uses
  match uses.lookup (issuer, jti) with
  | some _ => (false, uses)
  | none => (true, uses.insert (issuer, jti) (expiresAt C exp now))

section Exchange

variable {Bytes Key : Type} (P : DelegationPrimitives Bytes Key)

def getSpaceCredential (uses : DelegationUses) (r : CredentialRequest Key) :
    Except AppError IssuedCredential × DelegationUses :=
  match checkRequest P r with
  | .error e => (.error e, uses)
  | .ok (space, claims, boundKey) =>
    match consumeDelegationToken P.chrono uses claims.iss claims.jti claims.exp r.usedAt.val with
    | (true, uses) => (r.issue space claims boundKey, uses)
    | (false, uses) =>
      (.error (invalidDelegationToken "delegation token has already been used"), uses)

/-- The issuers and `jti`s of the tokens exchanged, one request after another. -/
def exchanged : DelegationUses → List (CredentialRequest Key) → List (String × String)
  | _, [] => []
  | uses, r :: rest =>
    match checkRequest P r, getSpaceCredential P uses r with
    | .ok (_, claims, _), (.ok _, uses) => (claims.iss, claims.jti) :: exchanged uses rest
    | _, (_, uses) => exchanged uses rest

end Exchange

end HappyView.Spaces
