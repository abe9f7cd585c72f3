import HappyView.Error
import HappyView.Foundation.Json
import HappyView.Scopes.Permissions

/-!
# The service proxy

A method that the server does not implement is forwarded to the caller's own PDS, as the
caller. Before that the scopes the session holds are checked against what the request
needs, for the few methods whose needs can be read off the method and its body
(`requiredFor`); everything else is forwarded unchecked.

The session is looked up elsewhere: what comes back of it here is the scope string it was
granted, where that is known. `urldecode` is the `urlencoding` crate's.
-/

namespace HappyView.Xrpc

open HappyView.Foundation HappyView.Scopes

inductive Required where
  /-- Every listed action on `collection`. -/
  | repo (collection : String) (actions : List RepoAction)
  | blob (mime : String)
  | rpc (lxm aud : String)
  deriving DecidableEq

/-! ## What a request needs -/

def collectionOf (body : Json) : Option String := (body.get "collection").bind Json.asString

/-- Whether the body gives the field a value other than `null`. -/
def isGiven (name : String) (body : Json) : Bool :=
  match body.get name with
  | none | some .null => false
  | some _ => true

/-- `actions` on the body's collection, or nothing when it names none. -/
def onCollection (body : Json) (actions : List RepoAction) : List Required :=
  ((collectionOf body).map fun collection => [.repo collection actions]).getD []

def writePermission (write : Json) : Option Required := do
  let collection ← collectionOf write
  let type ← (write.get "$type").bind Json.asString
  let (_, fragment) ← Text.rsplitOnce (· == '#') type
  match fragment with
  | "create" => some (.repo collection [.create])
  | "update" => some (.repo collection [.update])
  | "delete" => some (.repo collection [.delete])
  | _ => none

def requiredFor (method : String) (body : Json) (proxyAud : Option String) : List Required :=
  match proxyAud with
  -- A request to be relayed is a call to the audience that the header names.
  | some aud => [.rpc method aud]
  | none =>
    match method with
    | "com.atproto.repo.createRecord" => onCollection body [.create]
    | "com.atproto.repo.deleteRecord" => onCollection body [.delete]
    | "com.atproto.repo.putRecord" =>
      onCollection body (if isGiven "swapCid" body then [.update] else [.create, .update])
    | "com.atproto.repo.applyWrites" =>
      (((body.get "writes").bind Json.asArray).map (·.filterMap writePermission)).getD []
    | _ => []

/-! ## The check -/

section

variable (urldecode : String → Option String)

namespace Required

def held (granted : ScopePermissions) : Required → Bool
  | .repo collection actions =>
    actions.all fun action => granted.allowsRepo urldecode collection action
  | .blob mime => granted.allowsBlob urldecode mime
  | .rpc lxm aud => granted.allowsRpc urldecode lxm aud

def needed : Required → String
  | .repo collection actions =>
    String.intercalate " " (actions.map fun a => "repo:" ++ collection ++ "?action=" ++ a.asStr)
  | .blob mime => "blob:" ++ mime
  | .rpc lxm aud => "rpc:" ++ lxm ++ "?aud=" ++ aud

end Required

def notAuthorized (method needed : String) : AppError :=
  .forbidden ("this session is not authorized for " ++ method ++ ": it needs " ++ needed ++
    ". Scopes are fixed when a session is created, so this needs a new authorization with the " ++
    "scope included.")

def check (granted : ScopePermissions) (method : String) : List Required → Except AppError Unit
  | [] => .ok ()
  | requirement :: rest => do
    ensure (notAuthorized method requirement.needed) (requirement.held urldecode granted)
    check granted method rest

theorem check_eq_ok {granted : ScopePermissions} {method : String} {required : List Required} :
    check urldecode granted method required = .ok () ↔
      ∀ r ∈ required, r.held urldecode granted = true := by
  induction required with
  | nil => simp [check]
  | cons r rest ih => simp [check, bind_eq_ok, ih]

/-! ## Forwarding -/

def forwardedHeaderNames : List String := ["atproto-proxy", "atproto-accept-labelers"]

/-- The headers passed on; `header` gives a header's value where it is visible ASCII. -/
def forwardedHeaders (header : String → Option String) : List (String × String) :=
  forwardedHeaderNames.filterMap fun name => (header name).map fun value => (name, value)

/-- A forwarded write always acts as the caller, so it can only reach their own repo. -/
def checkRepoMatchesCaller (body : Json) (callerDid : String) : Except AppError Unit :=
  match (body.get "repo").bind Json.asString with
  | none => .ok ()
  | some repo =>
    ensure (.badRequest ("cannot write to " ++ repo ++ ": a proxied request acts as the " ++
      "authenticated user (" ++ callerDid ++ "), so it can only reach their own repo. Writing " ++
      "to another account's repo needs an admin-managed grant — see linked repos."))
      (repo == callerDid)

/-- `grantedScopes` is the scope string of the session, `none` where it cannot be known
from here (a cookie session), and then the PDS alone decides. -/
def enforceGrantedScopes (grantedScopes : Except AppError (Option String)) (method : String)
    (body : Json) (headers : List (String × String)) : Except AppError Unit :=
  let proxyAud := (headers.find? (·.1 == "atproto-proxy")).map (·.2)
  let required := requiredFor method body proxyAud
  if required.isEmpty then .ok ()
  else do
    match ← grantedScopes with
    | none => .ok ()
    | some scopes => check urldecode (ScopePermissions.parse scopes) method required

structure Forwarded where
  did : String
  method : String
  body : Json
  headers : List (String × String)

/-- `forward_to_caller_pds` up to the request it posts; `auth` is the lookup of the
caller's session. -/
def forwardToCallerPds (auth : Except AppError (Except AppError (Option String)))
    (callerDid method : String) (body : Json) (header : String → Option String) :
    Except AppError Forwarded := do
  checkRepoMatchesCaller body callerDid
  let grantedScopes ← auth
  let headers := forwardedHeaders header
  enforceGrantedScopes urldecode grantedScopes method body headers
  return ⟨callerDid, method, body, headers⟩

end

theorem find_forwardedHeaders {header : String → Option String}
    (absent : header "atproto-proxy" = none) :
    (forwardedHeaders header).find? (·.1 == "atproto-proxy") = none := by
  cases labelers : header "atproto-accept-labelers" <;>
    simp [forwardedHeaders, forwardedHeaderNames, absent, labelers]

/-- A request with no `atproto-proxy` header, from a session whose scopes are known, is
forwarded exactly when it is for the caller's own repo and everything it needs is held. -/
theorem forwardToCallerPds_isOk {urldecode : String → Option String}
    {scopes callerDid method : String} {body : Json} {header : String → Option String}
    (absent : header "atproto-proxy" = none) :
    (∃ sent, forwardToCallerPds urldecode (.ok (.ok (some scopes))) callerDid method body header =
      .ok sent) ↔
      checkRepoMatchesCaller body callerDid = .ok () ∧ ∀ r ∈ requiredFor method body none,
        r.held urldecode (ScopePermissions.parse scopes) = true := by
  have passes : enforceGrantedScopes urldecode (.ok (some scopes)) method body
      (forwardedHeaders header) = .ok () ↔ ∀ r ∈ requiredFor method body none,
        r.held urldecode (ScopePermissions.parse scopes) = true := by
    rw [enforceGrantedScopes, find_forwardedHeaders absent, Option.map_none]
    cases required : requiredFor method body none with
    | nil => simp
    | cons r rest => rw [← check_eq_ok]; rfl
  simp only [forwardToCallerPds, bind_eq_ok]
  constructor
  · rintro ⟨sent, ⟨⟩, own, granted, found, ⟨⟩, checked, -⟩
    cases found
    exact ⟨own, passes.mp checked⟩
  · rintro ⟨own, held⟩
    exact ⟨_, (), own, _, rfl, (), passes.mpr held, rfl⟩

end HappyView.Xrpc
