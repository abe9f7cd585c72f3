import HappyView.Error
import HappyView.Foundation.ReplayCache
import HappyView.Foundation.Text
import Mathlib.Data.List.Nodup

/-!
# DPoP proofs

A DPoP proof is a signed JWT that binds a request to a key. `validateDpopProof` checks
its form, the request it is for, its age, the access token and the signature, and then
that its `jti` has not been used with the same key before.

Base64, JSON, SHA-256 and ES256 come from outside the repository: they are the fields
of `Primitives`, over a type of byte strings that is left open.
-/

namespace HappyView.OAuth

open HappyView.Foundation

structure Jwk where
  kty : Option String
  crv : Option String
  x : Option String
  y : Option String

structure DpopHeader where
  alg : String
  typ : String
  jwk : Jwk

structure DpopPayload where
  htm : String
  htu : String
  iat : Nat
  ath : Option String
  jti : String
  deriving DecidableEq

structure Primitives (Bytes : Type) where
  decode : String → Option Bytes
  encode : Bytes → String
  encode_colon : ∀ bytes, ':' ∉ (encode bytes).toList
  parseHeader : Bytes → Option DpopHeader
  parsePayload : Bytes → Option DpopPayload
  sha256 : String → Bytes
  /-- `0x04 || x || y`. -/
  sec1 : Bytes → Bytes → Bytes
  isVerifyingKey : Bytes → Bool
  isSignature : Bytes → Bool
  verify : Bytes → String → Bytes → Bool

def dpopIatPastToleranceSecs : Nat := 300

def dpopIatFutureToleranceSecs : Nat := 30

structure Request where
  proofJwt : String
  expectedMethod : String
  expectedUrl : String
  accessToken : String
  expectedThumbprint : String
  now : Nat

def stripQueryFragment (url : String) : String :=
  String.ofList (url.toList.takeWhile fun c => c ≠ '#' && c ≠ '?')

def eqIgnoreAsciiCase (a b : String) : Bool :=
  a.toList.map Char.toLower = b.toList.map Char.toLower

section

variable {Bytes : Type} (P : Primitives Bytes)

def computeJwkThumbprint (jwk : Jwk) : Except AppError String := do
  let kty ← require (.internal "JWK missing kty") jwk.kty
  let crv ← require (.internal "JWK missing crv") jwk.crv
  let x ← require (.internal "JWK missing x") jwk.x
  let y ← require (.internal "JWK missing y") jwk.y
  let canonical := "\x7b\"crv\":\"" ++ crv ++ "\",\"kty\":\"" ++ kty ++ "\",\"x\":\"" ++ x ++
    "\",\"y\":\"" ++ y ++ "\"\x7d"
  return P.encode (P.sha256 canonical)

def verifyEs256Jwk (message : String) (signature : Bytes) (jwk : Jwk) : Except AppError Unit := do
  let xText ← require (.auth "DPoP JWK missing x") jwk.x
  let yText ← require (.auth "DPoP JWK missing y") jwk.y
  let x ← require (.auth "invalid DPoP JWK x") (P.decode xText)
  let y ← require (.auth "invalid DPoP JWK y") (P.decode yText)
  let key := P.sec1 x y
  ensure (.auth "invalid DPoP public key") (P.isVerifyingKey key)
  ensure (.auth "invalid DPoP signature format") (P.isSignature signature)
  ensure (.auth "DPoP proof signature verification failed") (P.verify key message signature)

/-- Whether a proof issued at `iat` is neither from the future nor expired. -/
def checkIat (iat now : Nat) : Except AppError Unit := do
  ensure (.auth "DPoP proof iat is in the future") (iat ≤ now + dpopIatFutureToleranceSecs)
  ensure (.auth "DPoP proof expired") (now ≤ iat + dpopIatPastToleranceSecs)

def checkParts (r : Request) (header64 payload64 signature64 : String) :
    Except AppError (String × DpopPayload) := do
  let headerBytes ← require (.auth "invalid DPoP proof header encoding") (P.decode header64)
  let header ← require (.auth "invalid DPoP proof header") (P.parseHeader headerBytes)
  ensure (.auth "DPoP proof typ must be dpop+jwt") (header.typ = "dpop+jwt")
  ensure (.auth "DPoP proof alg must be ES256") (header.alg = "ES256")
  let payloadBytes ← require (.auth "invalid DPoP proof payload encoding") (P.decode payload64)
  let payload ← require (.auth "invalid DPoP proof payload") (P.parsePayload payloadBytes)
  ensure (.auth "DPoP proof htm mismatch") (eqIgnoreAsciiCase payload.htm r.expectedMethod)
  ensure (.auth "DPoP proof htu mismatch") (payload.htu = stripQueryFragment r.expectedUrl)
  checkIat payload.iat r.now
  let ath ← require (.auth "DPoP proof missing required ath claim") payload.ath
  ensure (.auth "DPoP proof ath mismatch") (ath = P.encode (P.sha256 r.accessToken))
  let thumbprint ← computeJwkThumbprint P header.jwk
  ensure (.auth "DPoP proof key does not match session") (thumbprint = r.expectedThumbprint)
  let signature ← require (.auth "invalid DPoP proof signature encoding") (P.decode signature64)
  verifyEs256Jwk P (header64 ++ "." ++ payload64) signature header.jwk
  return (thumbprint, payload)

/-- Everything `validate_dpop_proof` checks before the replay cache. -/
def checkProof (r : Request) : Except AppError (String × DpopPayload) :=
  match Text.split '.' r.proofJwt with
  | [header64, payload64, signature64] => checkParts P r header64 payload64 signature64
  | _ => .error (.auth "invalid DPoP proof format")

/-- The `jti`s seen, by key thumbprint, with the times they can be forgotten. -/
abbrev Seen := ReplayCache.Cache String

def jtiKey (thumbprint jti : String) : String := thumbprint ++ ":" ++ jti

/-- Refuse a `jti` seen within its acceptance window, record any other. Entries past
their horizon are dropped once there are more than 10,000. -/
def checkAndRecordJti (seen : Seen) (thumbprint jti : String) (expiresAt now : Nat) :
    Except AppError Seen :=
  require (.auth "DPoP proof replay detected")
    (ReplayCache.offer 10000 seen ⟨jtiKey thumbprint jti, expiresAt, now⟩)

def validateDpopProof (seen : Seen) (r : Request) : Except AppError Seen := do
  let (thumbprint, payload) ← checkProof P r
  checkAndRecordJti seen thumbprint payload.jti (payload.iat + dpopIatPastToleranceSecs) r.now

/-- Validate the requests in turn: the thumbprint and `jti` of each proof accepted. -/
def acceptedProofs (seen : Seen) : List Request → List (String × String)
  | [] => []
  | r :: rest =>
    match checkProof P r, validateDpopProof P seen r with
    | .ok (thumbprint, payload), .ok next => (thumbprint, payload.jti) :: acceptedProofs next rest
    | _, _ => acceptedProofs seen rest

/-! ## The proofs as offers to a replay cache -/

variable {P}

/-- A thumbprint is base64url, so it ends at the first colon of a key. -/
theorem computeJwkThumbprint_colon {jwk : Jwk} {thumbprint : String}
    (h : computeJwkThumbprint P jwk = .ok thumbprint) : ':' ∉ thumbprint.toList := by
  obtain ⟨kty, crv, x, y⟩ := jwk
  cases kty <;> cases crv <;> cases x <;> cases y <;> cases h
  exact P.encode_colon _

theorem checkIat_eq_ok {iat now : Nat} {u : Unit} : checkIat iat now = .ok u ↔
    iat ≤ now + dpopIatFutureToleranceSecs ∧ now ≤ iat + dpopIatPastToleranceSecs := by
  simp [checkIat, bind_eq_ok]

theorem checkProof_eq_ok {r : Request} {thumbprint : String} {payload : DpopPayload}
    (h : checkProof P r = .ok (thumbprint, payload)) :
    thumbprint = r.expectedThumbprint ∧ (∃ jwk, computeJwkThumbprint P jwk = .ok thumbprint) ∧
      payload.htu = stripQueryFragment r.expectedUrl ∧
      payload.ath = some (P.encode (P.sha256 r.accessToken)) ∧
      payload.iat ≤ r.now + dpopIatFutureToleranceSecs ∧
      r.now ≤ payload.iat + dpopIatPastToleranceSecs := by
  unfold checkProof at h
  split at h
  · simp only [checkParts, bind_eq_ok, require_eq_ok, ensure_eq_ok, checkIat_eq_ok,
      decide_eq_true_eq, exists_const, Except.ok.injEq, pure, Except.pure, Prod.mk.injEq] at h
    obtain ⟨_, -, header, -, -, -, _, -, _, -, -, htu, fresh, _, ath, rfl, _, computed, rfl, _, -,
      _, -, rfl, rfl⟩ := h
    exact ⟨rfl, ⟨header.jwk, computed⟩, htu, ath, fresh⟩
  · cases h

theorem checkProof_colon {r : Request} {thumbprint : String} {payload : DpopPayload}
    (h : checkProof P r = .ok (thumbprint, payload)) : ':' ∉ thumbprint.toList := by
  obtain ⟨-, ⟨jwk, computed⟩, -⟩ := checkProof_eq_ok h
  exact computeJwkThumbprint_colon computed

theorem checkProof_of_split {r : Request} {header64 payload64 signature64 : String}
    (h : Text.split '.' r.proofJwt = [header64, payload64, signature64]) :
    checkProof P r = checkParts P r header64 payload64 signature64 := by
  rw [checkProof, h]

variable (P) in
def Request.offer (r : Request) : Option (ReplayCache.Offer String) :=
  (checkProof P r).toOption.map fun (thumbprint, payload) =>
    ⟨jtiKey thumbprint payload.jti, payload.iat + dpopIatPastToleranceSecs, r.now⟩

theorem Request.offer_eq_some {r : Request} {o : ReplayCache.Offer String} :
    r.offer P = some o ↔ ∃ thumbprint payload, checkProof P r = .ok (thumbprint, payload) ∧
      o = ⟨jtiKey thumbprint payload.jti, payload.iat + dpopIatPastToleranceSecs, r.now⟩ := by
  rcases h : checkProof P r with e | ⟨thumbprint, payload⟩ <;>
    simp [Request.offer, h, Except.toOption, eq_comm]

theorem acceptedProofs_keys (seen : Seen) (requests : List Request) :
    (acceptedProofs P seen requests).map (fun proof => jtiKey proof.1 proof.2) =
      ReplayCache.accepted 10000 seen (requests.filterMap (Request.offer P)) := by
  induction requests generalizing seen with
  | nil => rfl
  | cons r rest ih =>
    cases checked : checkProof P r with
    | error e =>
      have skipped : r.offer P = none := by simp [Request.offer, checked, Except.toOption]
      simp only [acceptedProofs, checked, List.filterMap_cons, skipped]
      exact ih seen
    | ok proof =>
      obtain ⟨thumbprint, payload⟩ := proof
      have offered := Request.offer_eq_some.mpr ⟨thumbprint, payload, checked, rfl⟩
      rw [List.filterMap_cons, offered]
      simp only [acceptedProofs, ReplayCache.accepted, validateDpopProof, checked,
        checkAndRecordJti, bind, Except.bind]
      cases recorded : ReplayCache.offer 10000 seen _ with
      | none => exact ih seen
      | some next => exact congrArg _ (ih next)

theorem mem_acceptedProofs {seen : Seen} {requests : List Request} {proof : String × String}
    (h : proof ∈ acceptedProofs P seen requests) :
    ∃ r ∈ requests, ∃ payload, checkProof P r = .ok (proof.1, payload) := by
  induction requests generalizing seen with
  | nil => cases h
  | cons r rest ih =>
    simp only [acceptedProofs] at h
    split at h
    · rename_i thumbprint payload next checked _
      rcases List.mem_cons.mp h with rfl | later
      · exact ⟨r, by simp, payload, checked⟩
      · obtain ⟨q, hq, found⟩ := ih later
        exact ⟨q, by simp [hq], found⟩
    · obtain ⟨q, hq, found⟩ := ih h
      exact ⟨q, by simp [hq], found⟩

theorem jtiKey_inj {t t' jti jti' : String} (ht : ':' ∉ t.toList) (ht' : ':' ∉ t'.toList) :
    jtiKey t jti = jtiKey t' jti' ↔ t = t' ∧ jti = jti' := by
  constructor
  · intro same
    exact Text.join_inj ht ht' same
  · rintro ⟨rfl, rfl⟩
    rfl

theorem acceptedProofs_nodup {seen : Seen} {requests : List Request} :
    (acceptedProofs P seen requests).Nodup ↔
      (ReplayCache.accepted 10000 seen (requests.filterMap (Request.offer P))).Nodup := by
  rw [← acceptedProofs_keys]
  constructor
  · intro once
    refine once.map_on fun p hp q hq same => ?_
    obtain ⟨_, -, _, checkedP⟩ := mem_acceptedProofs hp
    obtain ⟨_, -, _, checkedQ⟩ := mem_acceptedProofs hq
    have parts := (jtiKey_inj (checkProof_colon checkedP) (checkProof_colon checkedQ)).mp same
    exact Prod.ext parts.1 parts.2
  · exact List.Nodup.of_map _

/-- Under a clock that does not go back, no proof is accepted twice exactly when every
proof that passes the other checks comes strictly before the end of the window of the
first one with its key and `jti`. The `iat` check still passes a proof in the very
second its window ends. -/
theorem acceptedProofs_nodup_iff {requests : List Request}
    (clock : requests.Pairwise fun r q => r.now ≤ q.now) :
    (acceptedProofs P ∅ requests).Nodup ↔
      ∀ front r back, requests = front ++ r :: back →
        ∀ thumbprint payload, checkProof P r = .ok (thumbprint, payload) →
          (∀ q ∈ front, ∀ earlier, checkProof P q = .ok (thumbprint, earlier) →
            earlier.jti ≠ payload.jti) →
          ∀ q ∈ back, ∀ later, checkProof P q = .ok (thumbprint, later) →
            later.jti = payload.jti → q.now < payload.iat + dpopIatPastToleranceSecs := by
  have offersClock : (requests.filterMap (Request.offer P)).Pairwise fun p q => p.now ≤ q.now := by
    refine List.pairwise_filterMap.mpr (clock.imp ?_)
    intro r q le o offered o' offered'
    obtain ⟨_, _, -, rfl⟩ := Request.offer_eq_some.mp offered
    obtain ⟨_, _, -, rfl⟩ := Request.offer_eq_some.mp offered'
    exact le
  rw [acceptedProofs_nodup, ReplayCache.accepted_filterMap_nodup_iff offersClock]
  refine forall₄_congr fun front r back split => ?_
  constructor
  · intro inTime thumbprint payload checked first q hq later again same
    refine inTime _ (Request.offer_eq_some.mpr ⟨thumbprint, payload, checked, rfl⟩) ?_ q hq _
      (Request.offer_eq_some.mpr ⟨thumbprint, later, again, rfl⟩) (by rw [same])
    intro p hp e earlier
    obtain ⟨t, before, checkedP, rfl⟩ := Request.offer_eq_some.mp earlier
    rw [Ne, jtiKey_inj (checkProof_colon checkedP) (checkProof_colon checked)]
    rintro ⟨rfl, sameJti⟩
    exact first p hp before checkedP sameJti
  · intro inTime o offered first q hq e again same
    obtain ⟨thumbprint, payload, checked, rfl⟩ := Request.offer_eq_some.mp offered
    obtain ⟨t, later, checkedQ, rfl⟩ := Request.offer_eq_some.mp again
    obtain ⟨rfl, sameJti⟩ :=
      (jtiKey_inj (checkProof_colon checkedQ) (checkProof_colon checked)).mp same
    refine inTime t payload checked ?_ q hq later checkedQ sameJti
    intro p hp earlier checkedP sameJti
    refine first p hp _ (Request.offer_eq_some.mpr ⟨t, earlier, checkedP, rfl⟩) ?_
    rw [sameJti]

theorem acceptedProofs_again {r q : Request} {thumbprint : String} {payload : DpopPayload}
    (first : checkProof P r = .ok (thumbprint, payload))
    (second : checkProof P q = .ok (thumbprint, payload))
    (ended : payload.iat + dpopIatPastToleranceSecs ≤ q.now) :
    acceptedProofs P ∅ [r, q] = [(thumbprint, payload.jti), (thumbprint, payload.jti)] := by
  simp [acceptedProofs, validateDpopProof, first, second, checkAndRecordJti, ReplayCache.offer,
    require, bind, Except.bind, Nat.not_lt.mpr ended, -AList.insert_empty]

end

/-! ## One proof, twice

A proof for `GET https://a.b/x` and the token `tok`, signed with a P-256 key and issued at
1000. The primitives are those of the crates on what occurs in it, with a byte string
written as its base64url text. -/

namespace Sample

def x : String := "nq9g_maR8O66eQW0dsVf3-mw5aNxH6uwl5em21oLSLI"

def y : String := "XCsFHauZTdX2UPeaUUtV7bqLb2LMArYtSXe62JqC-l0"

def key : String :=
  "BJ6vYP5mkfDuunkFtHbFX9_psOWjcR-rsJeXpttaC0iyXCsFHauZTdX2UPeaUUtV7bqLb2LMArYtSXe62JqC-l0"

def header : String :=
  String.join [
    "eyJ0eXAiOiJkcG9wK2p3dCIsImFsZyI6IkVTMjU2Iiwi", "andrIjp7Imt0eSI6IkVDIiwiY3J2IjoiUC0yNTYiLCJ4",
    "IjoibnE5Z19tYVI4TzY2ZVFXMGRzVmYzLW13NWFOeEg2", "dXdsNWVtMjFvTFNMSSIsInkiOiJYQ3NGSGF1WlRkWDJV",
    "UGVhVVV0VjdicUxiMkxNQXJZdFNYZTYySnFDLWwwIn19"]

def payload : String :=
  String.join [
    "eyJqdGkiOiJqMSIsImh0bSI6IkdFVCIsImh0dSI6Imh0", "dHBzOi8vYS5iL3giLCJpYXQiOjEwMDAsImF0aCI6Ikdu",
    "WjA2MDduamZmaHJFT2FrOFA2amp5VVY0VFUzc245ampB", "UmM0c3ZIV0kifQ"]

def signature : String :=
  String.join [
    "ofDEuR8xB_K24CQMOQbGi08vnuIOuyknOjCqPlhPLJf6", "H_PNew3gmCyOn0iWm59iBF2dmt9Bh1K71WlFKxo6eA"]

def thumbprint : String := "584JtxYUzKc8Yj7a6UWs7KxImeZfJ9jR9gNrwuf71vs"

def canonical : String :=
  "\x7b\"crv\":\"" ++ "P-256" ++ "\",\"kty\":\"" ++ "EC" ++ "\",\"x\":\"" ++ x ++ "\",\"y\":\"" ++
    y ++ "\"\x7d"

def ath : String := "GnZ0607njffhrEOak8P6jjyUV4TU3sn9jjARc4svHWI"

def jwk : Jwk := ⟨"EC", "P-256", x, y⟩

def claims : DpopPayload := ⟨"GET", "https://a.b/x", 1000, ath, "j1"⟩

def primitives : Primitives String where
  decode text := if text ∈ [x, y, header, payload, signature] then some text else none
  encode bytes := if ':' ∈ bytes.toList then "" else bytes
  encode_colon bytes := by
    split
    · simp
    · assumption
  parseHeader bytes := if bytes = header then some ⟨"ES256", "dpop+jwt", jwk⟩ else none
  parsePayload bytes := if bytes = payload then some claims else none
  sha256 text := if text = "tok" then ath else if text = canonical then thumbprint else ""
  sec1 x' y' := if x' = x ∧ y' = y then key else ""
  isVerifyingKey bytes := bytes = key
  isSignature bytes := bytes = signature
  verify k message s := k = key ∧ message = header ++ "." ++ payload ∧ s = signature

def request (now : Nat) : Request where
  proofJwt := header ++ "." ++ payload ++ "." ++ signature
  expectedMethod := "GET"
  expectedUrl := "https://a.b/x?limit=1"
  accessToken := "tok"
  expectedThumbprint := thumbprint
  now := now

theorem split_proof (now : Nat) : Text.split '.' (request now).proofJwt =
    [header, payload, signature] := by
  have noDot {parts : List String} (h : ∀ part ∈ parts, '.' ∉ part.toList) :
      '.' ∉ (String.join parts).toList := by
    simpa [String.toList_join] using h
  have inHeader : '.' ∉ header.toList := noDot (by decide +kernel)
  have inPayload : '.' ∉ payload.toList := noDot (by decide +kernel)
  have inSignature : '.' ∉ signature.toList := noDot (by decide +kernel)
  have dot : "." = String.singleton '.' := by decide
  rw [request, dot]
  simp only [Text.split_join, Text.split_eq_singleton, inHeader, inPayload, inSignature,
    not_false_eq_true, List.cons_append, List.nil_append]

theorem decode_eq {text : String} (h : text ∈ [x, y, header, payload, signature]) :
    primitives.decode text = some text := if_pos h

theorem encode_ath : primitives.encode (primitives.sha256 "tok") = ath := by
  have plain : ':' ∉ ath.toList := by decide +kernel
  simp [primitives, plain]

theorem jwk_thumbprint : computeJwkThumbprint primitives jwk = .ok thumbprint := by
  have other : canonical ≠ "tok" := by decide +kernel
  have plain : ':' ∉ thumbprint.toList := by decide +kernel
  have encoded : primitives.encode (primitives.sha256 canonical) = thumbprint := by
    simp [primitives, other, plain]
  rw [← encoded]
  rfl

theorem signed : verifyEs256Jwk primitives (header ++ "." ++ payload) signature jwk = .ok () := by
  have decodeX : primitives.decode x = some x := decode_eq (by simp)
  have decodeY : primitives.decode y = some y := decode_eq (by simp)
  have point : primitives.sec1 x y = key := by simp [primitives]
  simp [verifyEs256Jwk, bind_eq_ok, jwk, decodeX, decodeY, point]
  simp [primitives]

theorem checkProof_request {now : Nat} (future : 970 ≤ now) (past : now ≤ 1300) :
    checkProof primitives (request now) = .ok (thumbprint, claims) := by
  have notAhead : 1000 ≤ now + dpopIatFutureToleranceSecs := by
    unfold dpopIatFutureToleranceSecs
    omega
  have fresh : checkIat claims.iat now = .ok () := checkIat_eq_ok.mpr ⟨notAhead, past⟩
  have url : stripQueryFragment "https://a.b/x?limit=1" = "https://a.b/x" := by decide +kernel
  have method : eqIgnoreAsciiCase "GET" "GET" = true := by decide
  rw [checkProof_of_split (split_proof now)]
  simp only [checkParts, bind_eq_ok, require_eq_ok, ensure_eq_ok]
  refine ⟨header, decode_eq (by simp), ⟨"ES256", "dpop+jwt", jwk⟩, by simp [primitives],
    (), by simp, (), by simp, payload, decode_eq (by simp), claims, by simp [primitives],
    (), method, (), ?_, (), fresh, ath, rfl, (), ?_, thumbprint, jwk_thumbprint, (), ?_,
    signature, decode_eq (by simp), (), signed, rfl⟩
  · exact decide_eq_true url.symm
  · exact decide_eq_true encode_ath.symm
  · exact decide_eq_true rfl

end Sample

/-- Accepted when it is issued, and again 300 seconds later. -/
theorem proof_accepted_twice :
    [Sample.request 1000, Sample.request 1300].Pairwise (fun r q => r.now ≤ q.now) ∧
      ¬ (acceptedProofs Sample.primitives ∅ [Sample.request 1000, Sample.request 1300]).Nodup := by
  refine ⟨by decide, ?_⟩
  rw [acceptedProofs_again (Sample.checkProof_request (by decide) (by decide))
    (Sample.checkProof_request (by decide) (by decide)) (by decide)]
  simp

/-- A second earlier it is a replay. -/
theorem acceptedProofs_nodup_replayed :
    (acceptedProofs Sample.primitives ∅ [Sample.request 1000, Sample.request 1299]).Nodup := by
  refine (acceptedProofs_nodup_iff (by decide)).mpr ?_
  intro front r back split thumbprint payload checked _ q hq _ _ _
  cases front with
  | nil =>
    cases split
    obtain rfl := List.mem_singleton.mp hq
    rw [Sample.checkProof_request (by decide) (by decide)] at checked
    cases checked
    decide
  | cons p front =>
    -- Nothing comes after the second request.
    have size := congrArg List.length split
    simp only [List.length_cons, List.length_nil, List.length_append] at size
    have := List.length_pos_of_mem hq
    omega

end HappyView.OAuth
