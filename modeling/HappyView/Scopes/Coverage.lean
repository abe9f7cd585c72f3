import HappyView.Scopes.Grants

/-!
# Coverage is containment

`covers_scope` compares a requested scope with a set of granted ones by their wildcards, defaults
and patterns. Outside `rpc`, what it accepts is sound: every operation the requested scope allows
by itself is allowed by the granted set.

For `rpc` it asks for the requested methods one by one and takes `*` for one of them.
`transition:generic` answers that question with yes, although it leaves out the methods under
`chat.bsky.`.
-/

namespace HappyView.Scopes

open HappyView.Foundation

/-! ## Accept patterns -/

theorem isAccept_wildcard {pattern head : String} (valid : isAccept pattern = true)
    (strip : Text.stripEnd "*" pattern = some head) : ∃ type, head.toList = type ++ ['/'] := by
  obtain rfl := Text.stripEnd_eq_some strip
  have slash : ∃ type, (head ++ "*").toList = type ++ ['/', '*'] := by
    unfold isAccept at valid
    split at valid
    · rename_i all
      exact ⟨['*'], by rw [all]; rfl⟩
    · split at valid
      · cases valid
      · have wildcard : (head ++ "*").toList.contains '*' = true := by simp
        rw [wildcard, Bool.not_true, Bool.false_or] at valid
        obtain ⟨type, ends⟩ := Option.isSome_iff_exists.mp valid
        exact ⟨type.toList, by rw [Text.stripEnd_eq_some ends]; simp⟩
  obtain ⟨type, ends⟩ := slash
  have cancel : head.toList ++ ['*'] = (type ++ ['/']) ++ ['*'] := by simpa using ends
  exact ⟨type, List.append_cancel_right cancel⟩

theorem BlobPermission.isAccept_of_parse {urldecode : String → Option String} {scope : String}
    {p : BlobPermission} (parsed : BlobPermission.parse urldecode scope = some p) :
    ∀ pattern ∈ p.accept, isAccept pattern = true := by
  simp only [BlobPermission.parse, Option.bind_eq_bind, Option.bind_eq_some_iff] at parsed
  obtain ⟨s, -, accept, -, checked⟩ := parsed
  split at checked
  · cases checked
  · rename_i valid
    cases checked
    simpa using valid

theorem acceptMatches_of_acceptCovers {held wanted mime : String} (valid : isAccept held = true)
    (covers : acceptCovers held wanted = true) (hit : acceptMatches wanted mime = true) :
    acceptMatches held mime = true := by
  unfold acceptCovers at covers
  unfold acceptMatches
  split
  · rfl
  · rename_i notAll
    rw [if_neg notAll] at covers
    split at covers
    · cases covers
    · rename_i wantedNotAll
      rw [acceptMatches, if_neg wantedNotAll] at hit
      cases strip : Text.stripEnd "*" held with
      | none =>
        simp only [strip, beq_iff_eq] at covers
        subst covers
        simpa only [strip] using hit
      | some head =>
        simp only [strip, Text.startsWith_iff] at covers ⊢
        cases wild : Text.stripEnd "*" wanted with
        | none =>
          simp only [wild, beq_iff_eq] at hit
          rwa [← hit]
        | some head' =>
          simp only [wild, Text.startsWith_iff] at hit
          -- The wildcard of `wanted` is not part of `head`, which ends in the slash.
          obtain ⟨type, ends⟩ := isAccept_wildcard valid strip
          have wide : wanted.toList = head'.toList ++ ['*'] := by
            rw [Text.stripEnd_eq_some wild]
            simp
          rw [wide] at covers
          rcases List.prefix_concat_iff.mp covers with whole | inside
          · rw [ends] at whole
            have last := List.append_inj_right' whole rfl
            simp at last
          · exact inside.trans hit

/-! ## Call scopes -/

theorem RpcPermission.isMatch_iff {p : RpcPermission} {lxm aud : String} :
    p.isMatch lxm aud = true ↔ (p.aud = "*" ∨ p.aud = aud) ∧ ("*" ∈ p.lxm ∨ lxm ∈ p.lxm) := by
  simp [RpcPermission.isMatch]

theorem RpcPermission.aud_ne_of_parse {urldecode : String → Option String} {scope : String}
    {p : RpcPermission} (parsed : RpcPermission.parse urldecode scope = some p)
    (all : "*" ∈ p.lxm) : p.aud ≠ "*" := by
  simp only [RpcPermission.parse, Option.bind_eq_bind, Option.bind_eq_some_iff] at parsed
  obtain ⟨s, -, lxm, -, aud, -, parts⟩ := parsed
  unfold RpcPermission.fromParts at parts
  grind

theorem exists_fresh_chat (names : List String) :
    ∃ lxm, Text.startsWith "chat.bsky." lxm = true ∧ lxm ∉ names := by
  obtain ⟨n, fresh⟩ := Text.exists_fresh "chat.bsky." "" names
  exact ⟨_, by simp [Text.startsWith_iff], fresh⟩

namespace ScopePermissions

variable {urldecode : String → Option String} {held : ScopePermissions}

/-! ## Containment, by resource -/

theorem repo_contained {p : RepoPermission} {collection : String} {action : RepoAction}
    (covers : held.coversRepo urldecode p = true) (hit : p.isMatch collection action = true) :
    held.allowsRepo urldecode collection action = true := by
  simp only [coversRepo, List.all_eq_true] at covers
  simp only [RepoPermission.isMatch, Bool.and_eq_true, Bool.or_eq_true,
    List.contains_iff_mem] at hit
  obtain ⟨act, all | listed⟩ := hit
  · -- Only `*` itself matches a requested `*`.
    have covered := covers "*" all action act
    simp only [allowsRepo, Bool.or_eq_true, any_parsed] at covered ⊢
    refine covered.imp_right ?_
    rintro ⟨scope, mem, q, parsed, passes⟩
    refine ⟨scope, mem, q, parsed, ?_⟩
    simp only [RepoPermission.isMatch, Bool.and_eq_true, Bool.or_eq_true] at passes ⊢
    grind
  · exact covers collection listed action act

theorem blob_contained {p : BlobPermission} {mime : String}
    (covers : ∀ accept ∈ p.accept, held.allowsAccept urldecode accept = true)
    (hit : p.isMatch mime = true) : held.allowsBlob urldecode mime = true := by
  simp only [BlobPermission.isMatch, Bool.and_eq_true, List.any_eq_true] at hit
  obtain ⟨concrete, accept, mem, hit⟩ := hit
  have covered := covers accept mem
  simp only [allowsAccept, allowsBlob, Bool.or_eq_true, any_parsed] at covered ⊢
  refine covered.imp_right ?_
  rintro ⟨scope, found, q, parsed, passes⟩
  obtain ⟨pattern, listed, covers⟩ := List.any_eq_true.mp passes
  have valid := BlobPermission.isAccept_of_parse parsed pattern listed
  refine ⟨scope, found, q, parsed, ?_⟩
  simp only [BlobPermission.isMatch, Bool.and_eq_true, List.any_eq_true]
  exact ⟨concrete, pattern, listed, acceptMatches_of_acceptCovers valid covers hit⟩

theorem identity_contained {p : IdentityPermission} {attr : String}
    (covers : held.allowsIdentity urldecode p.attr = true) (hit : p.isMatch attr = true) :
    held.allowsIdentity urldecode attr = true := by
  simp only [allowsIdentity, any_parsed] at covers ⊢
  obtain ⟨scope, mem, q, parsed, passes⟩ := covers
  refine ⟨scope, mem, q, parsed, ?_⟩
  simp only [IdentityPermission.isMatch, Bool.or_eq_true, beq_iff_eq] at hit passes ⊢
  grind

theorem account_contained {p : AccountPermission} {attr : String} {action : AccountAction}
    (covers : ∀ action ∈ p.action, held.allowsAccount urldecode p.attr action = true)
    (hit : p.isMatch attr action = true) : held.allowsAccount urldecode attr action = true := by
  simp only [AccountPermission.isMatch, Bool.and_eq_true, Bool.or_eq_true, beq_iff_eq,
    List.contains_iff_mem] at hit
  obtain ⟨rfl, manages | listed⟩ := hit
  · -- `transition:email` lets no one manage, so a permission does, and it may read as well.
    rcases allowsAccount_iff.mp (covers .manage manages) with
      ⟨-, -, read⟩ | ⟨scope, mem, q, parsed, passes⟩
    · cases read
    · refine allowsAccount_iff.mpr (.inr ⟨scope, mem, q, parsed, ?_⟩)
      simp only [AccountPermission.isMatch, Bool.and_eq_true, Bool.or_eq_true] at passes ⊢
      grind
  · exact covers action listed

theorem allowsSpace_of_selected {p : SpacePermission} {spaceType authority skey : String}
    {asked target : SpaceTarget}
    (covers : held.allowsSpace urldecode p.spaceType p.authority p.skey asked = true)
    (hit : p.isMatch spaceType authority skey target = true)
    (implied : ∀ q : SpacePermission, q.permits asked = true → q.permits target = true) :
    held.allowsSpace urldecode spaceType authority skey target = true := by
  obtain ⟨scope, mem, q, parsed, passes⟩ := any_parsed.mp covers
  refine any_parsed.mpr ⟨scope, mem, q, parsed, ?_⟩
  rw [SpacePermission.isMatch_iff] at hit passes ⊢
  obtain ⟨type, auth, key, -⟩ := hit
  obtain ⟨type', auth', key', permits⟩ := passes
  refine ⟨?_, ?_, ?_, implied q permits⟩
  all_goals grind

/-- For whatever a covered permission permits, the check has asked about something that
implies it, at the permission's own selectors. -/
theorem exists_asked {p : SpacePermission} {op : SpaceOperation}
    (covers : held.coversSpace urldecode p = true) (permits : p.permits op.target = true) :
    ∃ asked, held.allowsSpace urldecode p.spaceType p.authority p.skey asked = true ∧
      ∀ q : SpacePermission, q.permits asked = true → q.permits op.target = true := by
  simp only [coversSpace, Bool.and_eq_true, List.all_eq_true] at covers
  obtain ⟨⟨reads, writes⟩, manages⟩ := covers
  cases op with
  | read =>
    have listed : .read ∈ p.action := by
      simpa [SpaceOperation.target, SpacePermission.permits] using permits
    exact ⟨_, reads _ listed, fun _ h => h⟩
  | readSelf =>
    simp only [SpaceOperation.target, SpacePermission.permits, Bool.or_eq_true,
      List.contains_iff_mem] at permits
    rcases permits with all | own
    · exact ⟨_, reads _ all, fun q h => Bool.or_eq_true_iff.mpr (.inl h)⟩
    · exact ⟨_, reads _ own, fun _ h => h⟩
  | write kind collection =>
    simp only [SpaceOperation.target, SpacePermission.permits, Bool.and_eq_true,
      List.contains_iff_mem] at permits
    obtain ⟨act, into⟩ := permits
    obtain ⟨c, listed, wide⟩ := List.any_eq_true.mp into
    have covered : held.allowsSpace urldecode p.spaceType p.authority p.skey
        (.write kind.action c) = true := by
      cases kind <;> exact List.all_eq_true.mp (writes _ act) c listed
    refine ⟨_, covered, fun q h => ?_⟩
    simp only [SpaceOperation.target, SpacePermission.permits, SpacePermission.collectionAllows,
      Bool.and_eq_true, List.any_eq_true, Bool.or_eq_true, beq_iff_eq] at h wide ⊢
    grind
  | manage m =>
    have listed : m ∈ p.manage := by
      simpa [SpaceOperation.target, SpacePermission.permits] using permits
    exact ⟨_, manages _ listed, fun _ h => h⟩

theorem space_contained {p : SpacePermission} {spaceType authority skey : String}
    {op : SpaceOperation} (covers : held.coversSpace urldecode p = true)
    (hit : p.isMatch spaceType authority skey op.target = true) :
    held.allowsSpace urldecode spaceType authority skey op.target = true := by
  obtain ⟨-, -, -, permits⟩ := SpacePermission.isMatch_iff.mp hit
  obtain ⟨asked, covered, implied⟩ := exists_asked covers permits
  exact allowsSpace_of_selected covered hit implied

/-! ## Coverage of a scope -/

variable (urldecode held) in
/-- What `coversScope` asks for a scope that is not held itself, by the scope's grant. -/
def coversGrant : Grant → Bool
  | .repo p => held.coversRepo urldecode p
  | .rpc p => p.lxm.all fun lxm => held.allowsRpc urldecode lxm p.aud
  | .blob p => p.accept.all fun accept => held.allowsAccept urldecode accept
  | .identity p => held.allowsIdentity urldecode p.attr
  | .account p => p.action.all fun action => held.allowsAccount urldecode p.attr action
  | .space p => held.coversSpace urldecode p
  | .transitionGeneric | .transitionEmail | .transitionChatBsky => false

theorem coversScope_cases {scope : String} (h : held.coversScope urldecode scope = true) :
    scope = "atproto" ∨ scope ∈ held.scopes ∨
      ∃ g, Grant.Of urldecode scope g ∧ held.coversGrant urldecode g = true := by
  unfold coversScope at h
  split at h
  · rename_i held
    simp only [Bool.or_eq_true, decide_eq_true_eq, has_iff] at held
    exact held.imp_right .inl
  · refine .inr (.inr ?_)
    split at h <;> simp only [Option.any_eq_true, Bool.false_eq_true] at h
    all_goals obtain ⟨p, parsed, covers⟩ := h
    · exact ⟨.repo p, parsed, covers⟩
    · exact ⟨.rpc p, parsed, covers⟩
    · exact ⟨.blob p, parsed, covers⟩
    · exact ⟨.identity p, parsed, covers⟩
    · exact ⟨.space p, parsed, covers⟩
    · exact ⟨.account p, parsed, covers⟩

theorem coversGrant_of_coversScope {scope : String} {g : Grant}
    (h : held.coversScope urldecode scope = true) (meaning : Grant.Of urldecode scope g) :
    scope ∈ held.scopes ∨ held.coversGrant urldecode g = true := by
  rcases coversScope_cases h with rfl | mem | ⟨g', meaning', covers⟩
  · exact absurd meaning Grant.not_of_atproto
  · exact .inl mem
  · exact .inr (meaning.unique meaning' ▸ covers)

theorem allows_of_coversGrant {g : Grant} {op : Operation} (other : ∀ lxm aud, op ≠ .rpc lxm aud)
    (covers : held.coversGrant urldecode g = true) (hit : g.allows op = true) :
    held.allows urldecode op = true := by
  cases g <;> cases op <;>
    simp only [Grant.allows, coversGrant, Bool.false_eq_true, List.all_eq_true] at covers hit
  case repo.repo => exact repo_contained covers hit
  case rpc.rpc lxm aud => exact absurd rfl (other lxm aud)
  case blob.blob => exact blob_contained covers hit
  case identity.identity => exact identity_contained covers hit
  case account.account => exact account_contained covers hit
  case space.space => exact space_contained covers hit

theorem fromScopes_singleton {scope : String} {op : Operation} :
    (fromScopes [scope]).allows urldecode op = true ↔
      ∃ g, Grant.Of urldecode scope g ∧ g.allows op = true := by
  simp [allows_iff, fromScopes]

/-- Every operation but a call that a covered scope allows by itself is allowed by the set
that covers it. -/
theorem coversScope_sound {scope : String} {op : Operation}
    (covered : held.coversScope urldecode scope = true) (other : ∀ lxm aud, op ≠ .rpc lxm aud)
    (allowed : (fromScopes [scope]).allows urldecode op = true) :
    held.allows urldecode op = true := by
  obtain ⟨g, meaning, hit⟩ := fromScopes_singleton.mp allowed
  rcases coversGrant_of_coversScope covered meaning with mem | covers
  · exact allows_iff.mpr ⟨scope, mem, g, meaning, hit⟩
  · exact allows_of_coversGrant other covers hit

/-- A registered space scope covers a narrower one, for the write it asks for. -/
theorem coversScope_sound_space :
    (parse "atproto space:*?authority=*&collection=*").allows some
      (.space "com.example.forum" "did:plc:abc" "main"
        (.write .create "com.example.post")) = true := by
  have covered : (parse "atproto space:*?authority=*&collection=*").coversScope some
      "space:com.example.forum?authority=did:plc:abc&collection=com.example.post" = true := by
    decide +kernel
  exact coversScope_sound covered (by simp) (by decide +kernel)

/-! ## Calls -/

/-- A wildcard call scope that `held` answers by `transition:generic` alone. -/
def GenericOnly (urldecode : String → Option String) (held : ScopePermissions) (p : RpcPermission) :
    Prop :=
  "*" ∈ p.lxm ∧ held.hasTransitionGeneric = true ∧ held.hasTransitionChatBsky = false ∧
    ∀ scope ∈ held.scopes, ∀ q, RpcPermission.parse urldecode scope = some q →
      "*" ∈ q.lxm → q.aud ≠ p.aud

theorem rpc_contained {scope : String} {p : RpcPermission} {lxm aud : String}
    (parsed : RpcPermission.parse urldecode scope = some p)
    (covers : ∀ lxm ∈ p.lxm, held.allowsRpc urldecode lxm p.aud = true)
    (answered : ¬ GenericOnly urldecode held p) (hit : p.isMatch lxm aud = true) :
    held.allowsRpc urldecode lxm aud = true := by
  obtain ⟨pinned, all | listed⟩ := RpcPermission.isMatch_iff.mp hit
  · -- Every method, so at one audience.
    obtain rfl : p.aud = aud := pinned.resolve_left (RpcPermission.aud_ne_of_parse parsed all)
    have every {s : String} {q : RpcPermission} (mem : s ∈ held.scopes)
        (parsedQ : RpcPermission.parse urldecode s = some q) (wild : "*" ∈ q.lxm)
        (same : q.aud = "*" ∨ q.aud = p.aud) : held.allowsRpc urldecode lxm p.aud = true :=
      allowsRpc_iff.mpr (.inr (.inr ⟨s, mem, q, parsedQ,
        RpcPermission.isMatch_iff.mpr ⟨same, .inl wild⟩⟩))
    rcases allowsRpc_iff.mp (covers "*" all) with
      ⟨generic, -⟩ | ⟨-, chat⟩ | ⟨s, mem, q, parsedQ, hitQ⟩
    · by_cases chat : Text.startsWith "chat.bsky." lxm = true
      · by_cases chatBsky : held.hasTransitionChatBsky = true
        · exact allowsRpc_iff.mpr (.inr (.inl ⟨chatBsky, chat⟩))
        · have ⟨s, mem, q, parsedQ, wild, same⟩ : ∃ s ∈ held.scopes, ∃ q,
              RpcPermission.parse urldecode s = some q ∧ "*" ∈ q.lxm ∧ q.aud = p.aud := by
            by_contra none
            exact answered ⟨all, generic, by simpa using chatBsky,
              fun s mem q parsedQ wild same => none ⟨s, mem, q, parsedQ, wild, same⟩⟩
          exact every mem parsedQ wild (.inr same)
      · exact allowsRpc_iff.mpr (.inl ⟨generic, by simpa using chat⟩)
    · exact absurd chat (by decide)
    · obtain ⟨same, wild⟩ := RpcPermission.isMatch_iff.mp hitQ
      exact every mem parsedQ (wild.elim id id) same
  · rcases allowsRpc_iff.mp (covers lxm listed) with generic | chat | ⟨s, mem, q, parsedQ, hitQ⟩
    · exact allowsRpc_iff.mpr (.inl generic)
    · exact allowsRpc_iff.mpr (.inr (.inl chat))
    · refine allowsRpc_iff.mpr (.inr (.inr ⟨s, mem, q, parsedQ, ?_⟩))
      rw [RpcPermission.isMatch_iff] at hitQ ⊢
      grind

/-- Coverage of a call scope is sound exactly when the scope is not a wildcard that only
`transition:generic` answers, which leaves out the methods under `chat.bsky.`. -/
theorem coversScope_rpc_iff {scope : String} {p : RpcPermission}
    (parsed : RpcPermission.parse urldecode scope = some p)
    (covered : held.coversScope urldecode scope = true) :
    (∀ lxm aud, (fromScopes [scope]).allowsRpc urldecode lxm aud = true →
      held.allowsRpc urldecode lxm aud = true) ↔ ¬ GenericOnly urldecode held p := by
  have alone {lxm aud : String} : (fromScopes [scope]).allowsRpc urldecode lxm aud = true ↔
      p.isMatch lxm aud = true := by
    have meaning : Grant.Of urldecode scope (.rpc p) := parsed
    have single : (fromScopes [scope]).allows urldecode (.rpc lxm aud) = true ↔ _ :=
      fromScopes_singleton
    refine single.trans ⟨?_, fun hit => ⟨_, meaning, hit⟩⟩
    rintro ⟨g, meaning', hit⟩
    rwa [← meaning.unique meaning'] at hit
  constructor
  · rintro sound ⟨all, generic, noChat, noWildcard⟩
    obtain ⟨lxm, chat, fresh⟩ := exists_fresh_chat
      ((held.scopes.filterMap (RpcPermission.parse urldecode)).flatMap (·.lxm))
    have granted := sound lxm p.aud (alone.mpr (RpcPermission.isMatch_iff.mpr ⟨.inr rfl, .inl all⟩))
    rcases allowsRpc_iff.mp granted with ⟨-, other⟩ | ⟨chatBsky, -⟩ | ⟨s, mem, q, parsedQ, hit⟩
    · simp [chat] at other
    · simp [noChat] at chatBsky
    · obtain ⟨aud, every | listed⟩ := RpcPermission.isMatch_iff.mp hit
      · have := RpcPermission.aud_ne_of_parse parsedQ every
        grind
      · exact fresh (List.mem_flatMap.mpr ⟨q, List.mem_filterMap.mpr ⟨s, mem, parsedQ⟩, listed⟩)
  · intro answered lxm aud allowed
    have hit := alone.mp allowed
    rcases coversGrant_of_coversScope covered (g := .rpc p) parsed with mem | covers
    · exact allowsRpc_iff.mpr (.inr (.inr ⟨scope, mem, p, parsed, hit⟩))
    · simp only [coversGrant, List.all_eq_true] at covers
      exact rpc_contained parsed covers answered hit

/-! ## A wildcard answered by `transition:generic` -/

def hexValue (c : Char) : Option Nat :=
  if c.isDigit then some (c.toNat - '0'.toNat)
  else if 'a' ≤ c.toLower ∧ c.toLower ≤ 'f' then some (c.toLower.toNat - 'a'.toNat + 10)
  else none

def unescape : List Char → List Char
  | '%' :: a :: b :: rest =>
    match hexValue a, hexValue b with
    | some high, some low => Char.ofNat (16 * high + low) :: unescape rest
    | _, _ => '%' :: unescape (a :: b :: rest)
  | c :: rest => c :: unescape rest
  | [] => []

/-- `urlencoding::decode` on texts whose escapes are ASCII. -/
def asciiDecode (s : String) : Option String := some (String.ofList (unescape s.toList))

/-- A client registered for `transition:generic` is not let call `chat.bsky.` methods, but
a token that may call them is within its scopes. -/
theorem generic_covers_chat :
    (parse "transition:generic").coversScope asciiDecode "rpc:*?aud=did:web:x.com%23svc" = true ∧
      (fromScopes ["rpc:*?aud=did:web:x.com%23svc"]).allowsRpc asciiDecode
        "chat.bsky.convo.sendMessage" "did:web:x.com#svc" = true ∧
      (parse "transition:generic").allowsRpc asciiDecode
        "chat.bsky.convo.sendMessage" "did:web:x.com#svc" = false := by
  decide +kernel

/-- With `transition:chat.bsky` beside it, the methods it leaves out are granted too. -/
theorem coversScope_rpc_chat :
    (parse "transition:generic transition:chat.bsky").allowsRpc asciiDecode
      "chat.bsky.convo.sendMessage" "did:web:x.com#svc" = true := by
  have parsed : RpcPermission.parse asciiDecode "rpc:*?aud=did:web:x.com%23svc" =
      some ⟨"did:web:x.com#svc", ["*"]⟩ := by decide +kernel
  have covered : (parse "transition:generic transition:chat.bsky").coversScope asciiDecode
      "rpc:*?aud=did:web:x.com%23svc" = true := by decide +kernel
  have chat : (parse "transition:generic transition:chat.bsky").hasTransitionChatBsky = true := by
    decide +kernel
  refine (coversScope_rpc_iff parsed covered).mpr ?_ _ _ (by decide +kernel)
  rintro ⟨-, -, noChat, -⟩
  simp [chat] at noChat

end ScopePermissions

end HappyView.Scopes
