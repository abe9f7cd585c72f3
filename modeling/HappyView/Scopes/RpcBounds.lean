import HappyView.Scopes.Coverage
import Mathlib.Data.Fintype.BigOperators
import Mathlib.Data.List.OfFn

/-!
# No unbounded call grant

A call scope names its methods or its audience: `*` for both does not parse. Neither does a set of
call scopes amount to it, since a set whose scopes each name methods for all audiences names
finitely many, and there are more methods than a text can name (`exists_refused_call`).
-/

namespace HappyView.Scopes

open HappyView.Foundation
open HappyView.Nsid (mem_run_seq mem_run_set nil_mem_iterate)

/-! ## Many method names -/

theorem utf8Len_bounds (chars : List Char) :
    chars.length ≤ String.utf8Len chars ∧ String.utf8Len chars ≤ 4 * chars.length := by
  induction chars with
  | nil => simp
  | cons c chars ih =>
    have most := c.utf8Size_le_four
    have least := c.utf8Size_pos
    simp only [String.utf8Len_cons, List.length_cons]
    omega

/-- The method `c.e.x…` with the given letters at its end. -/
def methodName (letters : List Char) : String :=
  String.ofList ('c' :: '.' :: 'e' :: '.' :: 'x' :: letters)

theorem isNsid_methodName {letters : List Char} (short : letters.length ≤ 62)
    (all : ∀ c ∈ letters, c.isAlphanum = true) : isNsid (methodName letters) = true := by
  have size : (methodName letters).utf8ByteSize ≤ Nsid.maxNsidLen := by
    have bound := (utf8Len_bounds ('c' :: '.' :: 'e' :: '.' :: 'x' :: letters)).2
    rw [methodName, String.utf8ByteSize_ofList, Nsid.maxNsidLen]
    simp only [List.length_cons] at bound
    omega
  have found : [] ∈ Nsid.nsidPattern.run (methodName letters).toList := by
    rw [methodName, String.toList_ofList]
    refine mem_run_seq (mem_run_seq (mem_run_set (by decide)) List.mem_cons_self) ?_
    have round : '.' :: 'x' :: letters ∈ (Nsid.Pattern.seq Nsid.dot
        (.seq Nsid.alphanumeric Nsid.labelTail)).run ('.' :: 'e' :: '.' :: 'x' :: letters) :=
      mem_run_seq (mem_run_set (by decide))
        (mem_run_seq (mem_run_set (by decide)) List.mem_cons_self)
    have last : [] ∈ (Nsid.Pattern.seq Nsid.dot
        (.seq Nsid.letter (.upTo 62 Nsid.alphanumeric))).run ('.' :: 'x' :: letters) :=
      mem_run_seq (mem_run_set (by decide))
        (mem_run_seq (mem_run_set (by decide)) (nil_mem_iterate short all))
    exact mem_run_seq (List.mem_flatMap.mpr ⟨_, round, List.mem_cons_self⟩) last
  simp [isNsid, Nsid.validateNsid, Nsid.Pattern.isMatch, found, Nat.not_lt.mpr size]
  rfl

def methodLetter (n : Fin 16) : Char := Char.ofNat (97 + n)

def numberedMethod (f : Fin 16 → Fin 16) : String := methodName ((List.ofFn f).map methodLetter)

theorem numberedMethod_injective : Function.Injective numberedMethod := by
  intro f g same
  have letters : Function.Injective methodLetter := by
    unfold Function.Injective
    decide
  have chars := String.ofList_injective same
  simp only [List.cons.injEq, true_and] at chars
  exact List.ofFn_injective (List.map_injective_iff.mpr letters chars)

theorem isNsid_numberedMethod (f : Fin 16 → Fin 16) : isNsid (numberedMethod f) = true := by
  have alphanumeric : ∀ n, (methodLetter n).isAlphanum = true := by decide
  refine isNsid_methodName (by simp) fun c mem => ?_
  obtain ⟨n, -, rfl⟩ := List.mem_map.mp mem
  exact alphanumeric n

theorem exists_fresh_method {names : List String} (few : names.length < 2 ^ 64) :
    ∃ lxm, isNsid lxm = true ∧ lxm ∉ names := by
  have many : (Finset.univ.image numberedMethod).card = 2 ^ 64 := by
    rw [Finset.card_image_of_injective _ numberedMethod_injective, Finset.card_univ,
      Fintype.card_pi_const, Fintype.card_fin]
    rfl
  have fewer : names.toFinset.card < (Finset.univ.image numberedMethod).card := by
    have bound := List.toFinset_card_le names
    omega
  obtain ⟨lxm, mem, fresh⟩ := Finset.exists_mem_notMem_of_card_lt_card fewer
  obtain ⟨f, -, rfl⟩ := Finset.mem_image.mp mem
  exact ⟨_, isNsid_numberedMethod f, by simpa using fresh⟩

/-! ## Audiences -/

theorem isAbsoluteDidRef_letters (n : Nat) :
    isAbsoluteDidRef ("did:web:" ++ String.ofList (List.replicate (n + 1) 'a') ++ "#svc") =
      true := by
  have parts : "did:web:" ++ String.ofList (List.replicate (n + 1) 'a') ++ "#svc" =
      String.ofList (("did:web:".toList ++ List.replicate (n + 1) 'a') ++ '#' :: "svc".toList) := by
    rw [← String.toList_inj]
    simp
  have noMark : ∀ c ∈ "did:web:".toList ++ List.replicate (n + 1) 'a', (c == '#') = false := by
    intro c mem
    rcases List.mem_append.mp mem with head | tail
    · have none : ("did:web:".toList.all fun a => !(a == '#')) = true := by decide
      simpa using List.all_eq_true.mp none c head
    · rw [List.eq_of_mem_replicate tail]
      decide
  have host : isHostname (String.ofList (List.replicate (n + 1) 'a')) = true := by
    have whole : Text.split '.' (String.ofList (List.replicate (n + 1) 'a')) =
        [String.ofList (List.replicate (n + 1) 'a')] :=
      Text.split_eq_singleton (by simp)
    simp [isHostname, whole]
  have did : isSupportedDid (String.ofList ("did:web:".toList ++ List.replicate (n + 1) 'a')) =
      true := by
    have join : String.ofList ("did:web:".toList ++ List.replicate (n + 1) 'a') =
        "did:web:" ++ String.ofList (List.replicate (n + 1) 'a') := by
      rw [← String.toList_inj]
      simp
    have other : Text.strip "did:plc:" ("did:web:" ++ String.ofList (List.replicate (n + 1) 'a')) =
        none := by
      simp [Text.strip, List.dropPrefix?]
    rw [join, isSupportedDid, other]
    simp only [Text.strip_append]
    exact host
  have fragment : (String.ofList "svc".toList).isEmpty = false ∧
      (String.ofList "svc".toList).toList.contains '#' = false := by decide
  rw [isAbsoluteDidRef, parts, Text.splitOnce_append noMark (by decide)]
  simp only [fragment, Bool.or_self, Bool.false_eq_true, if_false, did]

/-! ## What a text names -/

theorem length_parseQuery_le (urldecode : String → Option String) (query : List Char) :
    (ScopeSyntax.parseQuery urldecode (String.ofList query)).length ≤ query.length + 1 := by
  have parts := Text.sum_length_splitOnP (· == '&') query
  have count : ((query.splitOnP (· == '&')).map fun part => part.length + 1).sum ≥
      (query.splitOnP (· == '&')).length := by
    induction query.splitOnP (· == '&') with
    | nil => simp
    | cons part rest ih =>
      simp only [List.map_cons, List.sum_cons, List.length_cons]
      omega
  have kept : (ScopeSyntax.parseQuery urldecode (String.ofList query)).length ≤
      (Text.split '&' (String.ofList query)).length := by
    rw [ScopeSyntax.parseQuery, List.length_map]
    exact List.length_filter_le _ _
  have same : (Text.split '&' (String.ofList query)).length =
      (query.splitOnP (· == '&')).length := by
    rw [Text.split, String.toList_ofList, List.length_map]
    rfl
  omega

theorem length_params_le (urldecode : String → Option String) (scope : String) :
    (ScopeSyntax.parse urldecode scope).params.length ≤ scope.toList.length + 1 := by
  unfold ScopeSyntax.parse
  simp only []
  split
  · simp
  · cases scope.toList.findIdx? (· == '?') with
    | none => simp
    | some mark =>
      have bound := length_parseQuery_le urldecode (scope.toList.drop (mark + 1))
      rw [List.length_drop] at bound
      simp only []
      split
      · omega
      · simp

theorem length_lxm_le {urldecode : String → Option String} {scope : String} {p : RpcPermission}
    (parsed : RpcPermission.parse urldecode scope = some p) :
    p.lxm.length ≤ scope.toList.length + 1 := by
  simp only [RpcPermission.parse, Option.bind_eq_bind, Option.bind_eq_some_iff] at parsed
  obtain ⟨s, resource, lxm, methods, aud, -, parts⟩ := parsed
  have syntaxEq : s = ScopeSyntax.parse urldecode scope := by
    unfold ScopeSyntax.resource at resource
    grind
  have kept : p.lxm = lxm := by
    unfold RpcPermission.fromParts at parts
    grind
  have params := length_params_le urldecode scope
  rw [← syntaxEq] at params
  rw [kept]
  unfold ScopeSyntax.multiOrPositional ScopeSyntax.getMulti at methods
  split at methods
  · -- The positional part alone.
    obtain ⟨value, -, rfl⟩ := Option.map_eq_some_iff.mp (by simpa using methods)
    simp
  · rename_i values found
    have few := List.length_filter_le (·.1 == "lxm") s.params
    obtain rfl : _ = lxm := by simpa using methods
    rw [List.length_map]
    omega

def namedMethods (urldecode : String → Option String) (scope : String) : List String :=
  (splitWhitespace scope).flatMap fun token =>
    ((RpcPermission.parse urldecode token).map (·.lxm)).getD []

theorem length_namedMethods_le (urldecode : String → Option String) (scope : String) :
    (namedMethods urldecode scope).length ≤ scope.toList.length + 1 := by
  rw [namedMethods, splitWhitespace, ← Text.sum_length_splitOnP isWhitespace scope.toList]
  induction scope.toList.splitOnP isWhitespace with
  | nil => simp
  | cons part rest ih =>
    have one : (((RpcPermission.parse urldecode (String.ofList part)).map (·.lxm)).getD []).length ≤
        part.length + 1 := by
      cases parsed : RpcPermission.parse urldecode (String.ofList part) with
      | none => simp
      | some p => simpa using length_lxm_le parsed
    rw [List.map_cons, List.sum_cons]
    cases empty : part.isEmpty
    · rw [List.filter_cons_of_pos (by simp [empty]), List.map_cons, List.flatMap_cons,
        List.length_append]
      omega
    · rw [List.filter_cons_of_neg (by simp [empty])]
      omega

/-! ## A call that is refused -/

/-- The most bytes that a text has, `isize::MAX`. -/
def maxTextBytes : Nat := 2 ^ 63 - 1

theorem mem_splitWhitespace {scope token : String} (h : token ∈ parseScopeList scope) :
    token ∈ splitWhitespace scope := by
  have collected := (mem_foldl_distinct id (splitWhitespace scope) [] token).mp h
  simpa using collected

/-- However many call scopes a text holds, and neither `transition:generic` nor
`transition:chat.bsky`, there are a method and an audience that it does not allow. -/
theorem exists_refused_call (urldecode : String → Option String) (scope : String)
    (bounded : scope.utf8ByteSize ≤ maxTextBytes)
    (noGeneric : "transition:generic" ∉ (ScopePermissions.parse scope).scopes)
    (noChat : "transition:chat.bsky" ∉ (ScopePermissions.parse scope).scopes) :
    ∃ lxm aud, isNsid lxm = true ∧ isAbsoluteDidRef aud = true ∧
      (ScopePermissions.parse scope).allowsRpc urldecode lxm aud = false := by
  have few : (namedMethods urldecode scope).length < 2 ^ 64 := by
    have names := length_namedMethods_le urldecode scope
    have bytes := (utf8Len_bounds scope.toList).1
    rw [← String.utf8ByteSize_ofList, String.ofList_toList] at bytes
    unfold maxTextBytes at bounded
    omega
  obtain ⟨lxm, valid, fresh⟩ := exists_fresh_method few
  obtain ⟨n, freshAud⟩ := Text.exists_fresh "did:web:" "#svc"
    (((ScopePermissions.parse scope).scopes.filterMap (RpcPermission.parse urldecode)).map (·.aud))
  refine ⟨lxm, _, valid, isAbsoluteDidRef_letters n, ?_⟩
  rw [Bool.eq_false_iff]
  intro allowed
  rcases ScopePermissions.allowsRpc_iff.mp allowed with
    ⟨generic, -⟩ | ⟨chat, -⟩ | ⟨token, mem, p, parsed, hit⟩
  · exact noGeneric (ScopePermissions.has_iff.mp generic)
  · exact noChat (ScopePermissions.has_iff.mp chat)
  · obtain ⟨aud | aud, all | listed⟩ := RpcPermission.isMatch_iff.mp hit
    · exact RpcPermission.aud_ne_of_parse parsed all aud
    · refine fresh (List.mem_flatMap.mpr ⟨token, mem_splitWhitespace mem, ?_⟩)
      simpa [parsed] using listed
    all_goals
      exact freshAud (List.mem_map.mpr ⟨p, List.mem_filterMap.mpr ⟨token, mem, parsed⟩, aud⟩)

/-- Every method at one audience and one method at every audience are not all calls. -/
theorem exists_refused_call_two :
    ∃ lxm aud, isNsid lxm = true ∧ isAbsoluteDidRef aud = true ∧
      (ScopePermissions.parse
        "atproto rpc:*?aud=did:web:x.com#svc rpc:com.example.getFeed?aud=*").allowsRpc some
          lxm aud = false :=
  exists_refused_call some "atproto rpc:*?aud=did:web:x.com#svc rpc:com.example.getFeed?aud=*"
    (by decide +kernel) (by decide +kernel) (by decide +kernel)

end HappyView.Scopes
