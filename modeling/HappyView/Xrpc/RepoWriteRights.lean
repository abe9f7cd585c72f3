import HappyView.Foundation.PercentEncoding
import HappyView.Xrpc.ServiceProxy

/-!
# The rights of a forwarded repo write

What a PDS may do for the body of a write is fixed by the lexicon of the method: it
refuses a body the lexicon does not allow, and does not look at fields the lexicon does
not have. Of the four methods, `putRecord` is the only one whose action depends on more
than its name, since it creates a record that is not there yet unless `swapRecord` gives
the record it replaces.

The scope check reads `swapCid` where the lexicon has `swapRecord`.
-/

namespace HappyView.Xrpc

open HappyView.Foundation HappyView.Scopes

/-! ## The lexicons -/

inductive WriteMethod where
  | createRecord
  | putRecord
  | deleteRecord
  | applyWrites
  deriving DecidableEq

def WriteMethod.nsid : WriteMethod → String
  | .createRecord => "com.atproto.repo.createRecord"
  | .putRecord => "com.atproto.repo.putRecord"
  | .deleteRecord => "com.atproto.repo.deleteRecord"
  | .applyWrites => "com.atproto.repo.applyWrites"

/-- The string formats that the four lexicons use. -/
structure Formats where
  atIdentifier : String → Bool
  nsid : String → Bool
  recordKey : String → Bool
  cid : String → Bool

namespace Lexicon

def string (format : String → Bool) : Json → Bool
  | .string text => format text
  | _ => false

def boolean : Json → Bool
  | .bool _ => true
  | _ => false

/-- A value of type `unknown` is an object. -/
def unknown : Json → Bool
  | .object _ => true
  | _ => false

def nullable (check : Json → Bool) : Json → Bool
  | .null => true
  | value => check value

def array (check : Json → Bool) : Json → Bool
  | .array items => items.all check
  | _ => false

def required (name : String) (check : Json → Bool) (body : Json) : Bool :=
  (body.get name).any check

def optional (name : String) (check : Json → Bool) (body : Json) : Bool :=
  (body.get name).all check

theorem exists_of_required {name : String} {format : String → Bool} {body : Json}
    (h : required name (string format) body = true) :
    ∃ text, body.get name = some (.string text) := by
  obtain ⟨value, found, passes⟩ := (Option.any_eq_true _ _).mp h
  cases value <;> simp_all [string]

end Lexicon

open Lexicon

namespace Formats

variable (formats : Formats)

def createRecord (body : Json) : Bool :=
  required "repo" (string formats.atIdentifier) body &&
  required "collection" (string formats.nsid) body &&
  optional "rkey" (string formats.recordKey) body &&
  optional "validate" boolean body &&
  required "record" unknown body &&
  optional "swapCommit" (string formats.cid) body

def putRecord (body : Json) : Bool :=
  required "repo" (string formats.atIdentifier) body &&
  required "collection" (string formats.nsid) body &&
  required "rkey" (string formats.recordKey) body &&
  optional "validate" boolean body &&
  required "record" unknown body &&
  optional "swapRecord" (nullable (string formats.cid)) body &&
  optional "swapCommit" (string formats.cid) body

def deleteRecord (body : Json) : Bool :=
  required "repo" (string formats.atIdentifier) body &&
  required "collection" (string formats.nsid) body &&
  required "rkey" (string formats.recordKey) body &&
  optional "swapRecord" (string formats.cid) body &&
  optional "swapCommit" (string formats.cid) body

/-- One member of the closed union of `applyWrites`. -/
def write (entry : Json) : Bool :=
  required "collection" (string formats.nsid) entry &&
  match entry.get "$type" with
  | some (.string "com.atproto.repo.applyWrites#create") =>
    optional "rkey" (string formats.recordKey) entry && required "value" unknown entry
  | some (.string "com.atproto.repo.applyWrites#update") =>
    required "rkey" (string formats.recordKey) entry && required "value" unknown entry
  | some (.string "com.atproto.repo.applyWrites#delete") =>
    required "rkey" (string formats.recordKey) entry
  | _ => false

def applyWrites (body : Json) : Bool :=
  required "repo" (string formats.atIdentifier) body &&
  optional "validate" boolean body &&
  required "writes" (array formats.write) body &&
  optional "swapCommit" (string formats.cid) body

def allows : WriteMethod → Json → Bool
  | .createRecord => formats.createRecord
  | .putRecord => formats.putRecord
  | .deleteRecord => formats.deleteRecord
  | .applyWrites => formats.applyWrites

end Formats

/-! ## What the PDS may do -/

structure RepoWrite where
  collection : String
  action : RepoAction
  deriving DecidableEq

/-- `actions` on the collection that the body names. -/
def writesOf (body : Json) (actions : List RepoAction) : List RepoWrite :=
  (collectionOf body).toList.flatMap fun collection => actions.map fun a => ⟨collection, a⟩

def entryWrites (entry : Json) : List RepoWrite :=
  match entry.get "$type" with
  | some (.string "com.atproto.repo.applyWrites#create") => writesOf entry [.create]
  | some (.string "com.atproto.repo.applyWrites#update") => writesOf entry [.update]
  | some (.string "com.atproto.repo.applyWrites#delete") => writesOf entry [.delete]
  | _ => []

/-- The writes that a PDS may perform for a body its lexicon allows. -/
def mayPerform : WriteMethod → Json → List RepoWrite
  | .createRecord, body => writesOf body [.create]
  | .putRecord, body =>
    writesOf body (if isGiven "swapRecord" body then [.update] else [.create, .update])
  | .deleteRecord, body => writesOf body [.delete]
  | .applyWrites, body =>
    ((body.get "writes").bind Json.asArray).toList.flatten.flatMap entryWrites

/-- The writes that a PDS may perform for the body; it performs none for a body it
refuses. -/
def pdsWrites (formats : Formats) (method : WriteMethod) (body : Json) : List RepoWrite :=
  if formats.allows method body then mayPerform method body else []

def narrowed (body : Json) : Bool := isGiven "swapCid" body && !isGiven "swapRecord" body

/-! ## The check asks for what the PDS may do -/

theorem mem_writesOf {body : Json} {actions : List RepoAction} {w : RepoWrite} :
    w ∈ writesOf body actions ↔ collectionOf body = some w.collection ∧ w.action ∈ actions := by
  cases w
  simp only [writesOf, List.mem_flatMap, Option.mem_toList, List.mem_map, RepoWrite.mk.injEq]
  grind

theorem mem_onCollection {body : Json} {actions : List RepoAction} {collection : String}
    (named : collectionOf body = some collection) :
    .repo collection actions ∈ onCollection body actions := by
  simp [onCollection, named]

theorem writePermission_of_mem {entry : Json} {w : RepoWrite} (h : w ∈ entryWrites entry) :
    writePermission entry = some (.repo w.collection [w.action]) := by
  unfold entryWrites at h
  have fragments :
      Text.rsplitOnce (· == '#') "com.atproto.repo.applyWrites#create" =
        some ("com.atproto.repo.applyWrites", "create") ∧
      Text.rsplitOnce (· == '#') "com.atproto.repo.applyWrites#update" =
        some ("com.atproto.repo.applyWrites", "update") ∧
      Text.rsplitOnce (· == '#') "com.atproto.repo.applyWrites#delete" =
        some ("com.atproto.repo.applyWrites", "delete") := by decide +kernel
  obtain ⟨create, update, delete⟩ := fragments
  split at h
  all_goals rename_i type
  case h_4 => simp at h
  all_goals
    obtain ⟨named, action⟩ := mem_writesOf.mp h
    rw [List.mem_singleton] at action
    simp [writePermission, named, type, action, Json.asString, create, update, delete]

theorem required_of_mayPerform {method : WriteMethod} {body : Json} {w : RepoWrite}
    (agree : ¬ (method = .putRecord ∧ narrowed body = true)) (h : w ∈ mayPerform method body) :
    ∃ actions, .repo w.collection actions ∈ requiredFor method.nsid body none ∧
      w.action ∈ actions := by
  cases method with
  | createRecord =>
    obtain ⟨named, action⟩ := mem_writesOf.mp h
    exact ⟨_, mem_onCollection named, action⟩
  | deleteRecord =>
    obtain ⟨named, action⟩ := mem_writesOf.mp h
    exact ⟨_, mem_onCollection named, action⟩
  | putRecord =>
    obtain ⟨named, action⟩ := mem_writesOf.mp h
    refine ⟨_, mem_onCollection named, ?_⟩
    -- A put that the check takes for an update is one for the PDS as well.
    cases swap : isGiven "swapCid" body
    · have every : w.action = .create ∨ w.action = .update := by
        split at action <;> simp_all
      simpa using every
    · have given : isGiven "swapRecord" body = true := by
        simpa [narrowed, swap] using agree
      simpa [given] using action
  | applyWrites =>
    obtain ⟨entry, mem, performed⟩ := List.mem_flatMap.mp h
    obtain ⟨items, found, listed⟩ := List.mem_flatten.mp mem
    rw [Option.mem_toList] at found
    refine ⟨[w.action], ?_, by simp⟩
    have permission := writePermission_of_mem performed
    have writes : requiredFor WriteMethod.applyWrites.nsid body none =
        items.filterMap writePermission := by
      simp [requiredFor, WriteMethod.nsid, found]
    rw [writes, List.mem_filterMap]
    exact ⟨entry, listed, permission⟩

/-! ## A grant of updates alone -/

def updatesOnly : String := "repo:*?action=update"

section

variable {urldecode : String → Option String}
  (plain : ∀ s, (∀ c ∈ s.toList, c.toNat < 128 ∧ c ≠ '%') → urldecode s = some s)

include plain

theorem urldecode_plain (s : String) (all : s.toList.all fun c => c.toNat < 128 && c != '%') :
    urldecode s = some s := plain s (by simpa using all)

theorem parse_updatesOnly : ScopeSyntax.parse urldecode updatesOnly =
    ⟨"repo", some "*", [("action", "update")]⟩ := by
  have mark : updatesOnly.toList.findIdx? (· == '?') = some 6 := by decide +kernel
  have colon : updatesOnly.toList.findIdx? (· == ':') = some 4 := by decide +kernel
  have parts : String.ofList ((updatesOnly.toList.take 6).drop (4 + 1)) = "*" ∧
      6 < updatesOnly.toList.length - 1 ∧
      (Text.split '&' (String.ofList (updatesOnly.toList.drop (6 + 1)))).filter (!·.isEmpty) =
        ["action=update"] ∧
      Text.splitOnce (· == '=') "action=update" = some ("action", "update") := by decide +kernel
  obtain ⟨positional, more, pairs, pair⟩ := parts
  have wildcard : ScopeSyntax.decodeUriComponent urldecode "*" = "*" := by
    simp [ScopeSyntax.decodeUriComponent, urldecode_plain plain "*" (by decide)]
  have key : ScopeSyntax.decodeForm urldecode "action" = "action" := by
    simp [ScopeSyntax.decodeForm, urldecode_plain plain "action" (by decide)]
  have value : ScopeSyntax.decodeForm urldecode "update" = "update" := by
    simp [ScopeSyntax.decodeForm, urldecode_plain plain "update" (by decide)]
  simp only [ScopeSyntax.parse, mark, colon, ScopeSyntax.minIdx, positional, if_pos more,
    ScopeSyntax.parseQuery, pairs, pair, wildcard, key, value, List.map_cons, List.map_nil]
  rfl

theorem allowsRepo_updatesOnly (collection : String) (action : RepoAction) :
    (ScopePermissions.parse updatesOnly).allowsRepo urldecode collection action = true ↔
      action = .update := by
  have scopes : (ScopePermissions.parse updatesOnly).scopes = [updatesOnly] := by decide +kernel
  have grant : RepoPermission.parse urldecode updatesOnly = some ⟨["*"], [.update]⟩ := by
    rw [RepoPermission.parse, ScopeSyntax.resource, parse_updatesOnly plain]
    decide +kernel
  have other : updatesOnly ≠ "transition:generic" := by decide
  simp [ScopePermissions.allowsRepo, ScopePermissions.hasTransitionGeneric, ScopePermissions.has,
    scopes, grant, RepoPermission.isMatch, other.symm]

theorem forwards_updatesOnly {body : Json} {callerDid : String} {header : String → Option String}
    (absent : header "atproto-proxy" = none)
    (own : body.get "repo" = some (.string callerDid)) (swap : isGiven "swapCid" body = true) :
    ∃ sent, forwardToCallerPds urldecode (.ok (.ok (some updatesOnly))) callerDid
      WriteMethod.putRecord.nsid body header = .ok sent := by
  have repo : checkRepoMatchesCaller body callerDid = .ok () := by
    simp [checkRepoMatchesCaller, own, Json.asString]
  refine (forwardToCallerPds_isOk absent).mpr ⟨repo, ?_⟩
  intro r mem
  have needs : requiredFor WriteMethod.putRecord.nsid body none = onCollection body [.update] := by
    simp [requiredFor, WriteMethod.nsid, swap]
  rw [needs, onCollection] at mem
  cases named : collectionOf body with
  | none => simp [named] at mem
  | some collection =>
    obtain rfl : r = .repo collection [.update] := by simpa [named] using mem
    simp [Required.held, allowsRepo_updatesOnly plain]

end

/-! ## Forwarded writes -/

/-- For a caller, one of the four methods and a body, every scope string under which the
request is forwarded with no `atproto-proxy` header allows everything the PDS may do for
the body, unless it is a put for the caller's repo that gives a `swapCid` and no
`swapRecord`. Of percent-decoding it is used that ASCII texts without a `%` stay as they are. -/
theorem forwarded_writes_within_scopes (urldecode : String → Option String)
    (plain : ∀ s, (∀ c ∈ s.toList, c.toNat < 128 ∧ c ≠ '%') → urldecode s = some s)
    (formats : Formats) (method : WriteMethod) (body : Json) (callerDid : String)
    (header : String → Option String) (absent : header "atproto-proxy" = none) :
    (∀ scopes sent, forwardToCallerPds urldecode (.ok (.ok (some scopes))) callerDid method.nsid
        body header = .ok sent →
      ∀ w ∈ pdsWrites formats method body,
        (ScopePermissions.parse scopes).allowsRepo urldecode w.collection w.action = true) ↔
      ¬ (method = .putRecord ∧ formats.putRecord body = true ∧
        body.get "repo" = some (.string callerDid) ∧ narrowed body = true) := by
  constructor
  · rintro within ⟨rfl, allowed, own, differs⟩
    obtain ⟨swap, creates⟩ : isGiven "swapCid" body = true ∧ isGiven "swapRecord" body = false := by
      simpa [narrowed] using differs
    obtain ⟨sent, forwarded⟩ := forwards_updatesOnly plain absent own swap
    have named : ∃ collection, collectionOf body = some collection := by
      have field : required "collection" (string formats.nsid) body = true := by
        simp only [Formats.putRecord, Bool.and_eq_true] at allowed
        grind
      obtain ⟨text, found⟩ := exists_of_required field
      exact ⟨text, by simp [collectionOf, found, Json.asString]⟩
    obtain ⟨collection, named⟩ := named
    have performed : ⟨collection, .create⟩ ∈ pdsWrites formats .putRecord body := by
      have passes : formats.allows .putRecord body = true := allowed
      rw [pdsWrites, if_pos passes, mayPerform, creates]
      exact mem_writesOf.mpr ⟨named, by simp⟩
    have held := within updatesOnly sent forwarded _ performed
    exact nomatch (allowsRepo_updatesOnly plain _ _).mp held
  · intro agree scopes sent forwarded w mem
    obtain ⟨own, held⟩ := (forwardToCallerPds_isOk absent).mp ⟨sent, forwarded⟩
    unfold pdsWrites at mem
    split at mem
    · rename_i allowed
      have reads : ¬ (method = .putRecord ∧ narrowed body = true) := by
        rintro ⟨rfl, differs⟩
        refine agree ⟨rfl, allowed, ?_, differs⟩
        have field : required "repo" (string formats.atIdentifier) body = true := by
          simp only [Formats.allows, Formats.putRecord, Bool.and_eq_true] at allowed
          grind
        obtain ⟨repo, found⟩ := exists_of_required field
        rw [checkRepoMatchesCaller, found] at own
        have same : repo = callerDid := by simpa [Json.asString] using own
        rw [found, same]
      obtain ⟨actions, needed, listed⟩ := required_of_mayPerform reads mem
      have all := held _ needed
      simp only [Required.held, List.all_eq_true] at all
      exact all w.action listed
    · simp at mem

def plainFormats : Formats where
  atIdentifier := isValidDid
  nsid := isNsid
  recordKey := isValidRecordKey
  cid text := !text.isEmpty

def batch : Json := .object [
  ("repo", .string "did:plc:alice"),
  ("writes", .array [
    .object [
      ("$type", .string "com.atproto.repo.applyWrites#create"),
      ("collection", .string "com.example.post"),
      ("value", .object [])],
    .object [
      ("$type", .string "com.atproto.repo.applyWrites#delete"),
      ("collection", .string "com.example.like"),
      ("rkey", .string "3jui7kd54zh2y")]])]

/-- A batch is forwarded under the two scopes it needs, and they allow its deletion. -/
theorem forwarded_writes_within_scopes_batch :
    (∃ sent, forwardToCallerPds Percent.decode
      (.ok (.ok (some "repo:com.example.post?action=create repo:com.example.like?action=delete")))
      "did:plc:alice" WriteMethod.applyWrites.nsid batch (fun _ => none) = .ok sent) ∧
    (ScopePermissions.parse
      "repo:com.example.post?action=create repo:com.example.like?action=delete").allowsRepo
        Percent.decode "com.example.like" .delete = true := by
  have forwarded : ∃ sent, forwardToCallerPds Percent.decode
      (.ok (.ok (some "repo:com.example.post?action=create repo:com.example.like?action=delete")))
      "did:plc:alice" WriteMethod.applyWrites.nsid batch (fun _ => none) = .ok sent :=
    (forwardToCallerPds_isOk rfl).mpr ⟨rfl, by decide +kernel⟩
  refine ⟨forwarded, ?_⟩
  obtain ⟨sent, passed⟩ := forwarded
  exact (forwarded_writes_within_scopes Percent.decode (fun _ => Percent.decode_eq_self)
    plainFormats .applyWrites batch "did:plc:alice" (fun _ => none) rfl).mpr (by simp) _ sent
      passed ⟨"com.example.like", .delete⟩
      (by decide +kernel)

def swapCidPut : Json := .object [
  ("repo", .string "did:plc:alice"),
  ("collection", .string "com.example.post"),
  ("rkey", .string "self"),
  ("record", .object []),
  ("swapCid", .string "bafyreiabc")]

/-- A session that may only update posts is forwarded a put with a `swapCid`, for which
the PDS may create the post. -/
theorem swapCid_put_creates :
    (∃ sent, forwardToCallerPds Percent.decode
      (.ok (.ok (some "repo:com.example.post?action=update"))) "did:plc:alice"
      "com.atproto.repo.putRecord" swapCidPut (fun _ => none) = .ok sent) ∧
    ⟨"com.example.post", .create⟩ ∈ pdsWrites plainFormats .putRecord swapCidPut ∧
    (ScopePermissions.parse "repo:com.example.post?action=update").allowsRepo Percent.decode
      "com.example.post" .create = false := by
  refine ⟨(forwardToCallerPds_isOk rfl).mpr ⟨rfl, by decide +kernel⟩, ?_⟩
  decide +kernel

end HappyView.Xrpc
