import HappyView.Foundation.PercentEncoding
import HappyView.Scopes.Grants
import HappyView.Scopes.Include
import HappyView.Scopes.ParameterOrder

/-!
# Permission sets as scope strings

`expand_permission_set` writes the permissions of a permission set as scope strings, to be
parsed again where they are checked. Nothing is lost or gained on the way: the strings
allow exactly what the permissions allow (`expanded_texts_allow_iff`).

Audiences, authorities and keys are percent-encoded; an audience has any text at all after its
`#`. The encoding is the `urlencoding` crate's: a parameter, of which is asked that it reads back
what it writes, writes only unreserved characters and `%`, and leaves unreserved ones alone.
-/

namespace HappyView.Scopes

open HappyView.Foundation

/-! ## The code -/

section Code

variable (U : Percent.Codec)

def repoTexts (p : RepoPermission) : List String :=
  p.collection.flatMap fun collection =>
    p.action.map fun action => "repo:" ++ collection ++ "?action=" ++ action.asStr

def rpcTexts (p : RpcPermission) : List String :=
  p.lxm.map fun lxm => "rpc:" ++ lxm ++ "?aud=" ++ U.encode p.aud

def spacePairs (p : SpacePermission) : List String :=
  ["authority=" ++ U.encode p.authority, "skey=" ++ U.encode p.skey] ++
    p.collection.map (fun collection => "collection=" ++ U.encode collection) ++
    p.action.map (fun action => "action=" ++ action.asStr) ++
    p.manage.map (fun op => "manage=" ++ op.asStr)

def spaceText (p : SpacePermission) : String :=
  "space:" ++ p.spaceType ++ "?" ++ String.intercalate "&" (spacePairs U p)

def IncludedPermission.texts : IncludedPermission → List String
  | .repo p => repoTexts p
  | .rpc p => rpcTexts U p
  | .space p => [spaceText U p]

/-- The permissions that an include scope stands for: none where the scope is malformed, or
the set is not to be found or no permission set. A built-in set is never taken from the
registry. -/
def includedPermissions (builtin registry : String → Option Json) (scope : String) :
    List IncludedPermission :=
  (do let inc ← IncludeScope.parse U.decode scope
      let raw ← (builtin inc.nsid).or (registry inc.nsid)
      let set ← lexPermissionSet raw
      return inc.expand set).getD []

/-- `out` with the scope strings of the permissions after it. -/
def expandPermissionSet (builtin registry : String → Option Json) (scope : String)
    (out : List String) : List String :=
  out ++ (includedPermissions U builtin registry scope).flatMap (·.texts U)

end Code

def IncludedPermission.grant : IncludedPermission → Grant
  | .repo p => .repo p
  | .rpc p => .rpc p
  | .space p => .space p

/-! ## Reading the pieces of a text back -/

theorem plain_of_isNsid {name : String} (valid : isNsid name = true) :
    ∀ c ∈ name.toList, Percent.plain c = true := by
  intro c mem
  have kind := Nsid.chars_of_validateNsid valid c mem
  simp only [Bool.or_eq_true, beq_iff_eq] at kind
  rcases kind with (alphanumeric | rfl) | rfl
  · exact Percent.plain_of_isAlphanum alphanumeric
  · decide
  · decide

theorem not_mem_of_plain {s : String} (all : ∀ c ∈ s.toList, Percent.plain c = true) (mark : Char)
    (special : Percent.plain mark = false) : mark ∉ s.toList := by
  intro mem
  rw [all mark mem] at special
  cases special

variable {U : Percent.Codec}

theorem not_mem_encode (laws : U.Laws) {s : String} {mark : Char} (percent : mark ≠ '%')
    (special : Percent.plain mark = false) : mark ∉ (U.encode s).toList := by
  intro mem
  rcases laws.mem_encode mem with plain | escape
  · rw [plain] at special
    cases special
  · exact percent escape

namespace ScopeSyntax

theorem decodeForm_encode (laws : U.Laws) (s : String) :
    decodeForm U.decode (U.encode s) = s := by
  have noPlus : '+' ∉ (U.encode s).toList := not_mem_encode laws (by decide) (by decide +kernel)
  have kept : String.ofList ((U.encode s).toList.map fun c => if c = '+' then ' ' else c) =
      U.encode s := by
    have same : (U.encode s).toList.map (fun c => if c = '+' then ' ' else c) =
        (U.encode s).toList.map id := by
      refine List.map_congr_left fun c mem => if_neg ?_
      rintro rfl
      exact noPlus mem
    rw [same, List.map_id, String.ofList_toList]
  simp only [decodeForm, kept, laws.decode_encode, Option.getD_some]

theorem decodeForm_plain (laws : U.Laws) {s : String}
    (all : ∀ c ∈ s.toList, Percent.plain c = true) : decodeForm U.decode s = s := by
  have read := decodeForm_encode laws s
  rwa [laws.encode_eq_self all] at read

theorem parsePair_encode (laws : U.Laws) {key : String}
    (plain : ∀ c ∈ key.toList, Percent.plain c = true) (value : String) :
    parsePair U.decode (key ++ "=" ++ U.encode value) = (key, value) := by
  have parts : key ++ "=" ++ U.encode value =
      String.ofList (key.toList ++ '=' :: (U.encode value).toList) := by
    rw [← String.toList_inj]
    simp
  have noEquals : ∀ c ∈ key.toList, (c == '=') = false := by
    intro c mem
    rw [beq_eq_false_iff_ne]
    rintro rfl
    exact not_mem_of_plain plain '=' (by decide) mem
  rw [parsePair, parts, Text.splitOnce_append noEquals (by decide)]
  simp only [String.ofList_toList, decodeForm_plain laws plain, decodeForm_encode laws]

theorem parse_positional (laws : U.Laws) {name value : String} (colon : ':' ∉ name.toList)
    (mark : '?' ∉ name.toList) (plain : ∀ c ∈ value.toList, Percent.plain c = true) :
    parse U.decode (name ++ ":" ++ value) = ⟨name, some value, []⟩ := by
  have whole : (name ++ ":" ++ value).toList = name.toList ++ ':' :: value.toList := by simp
  have noMark : (name.toList ++ ':' :: value.toList).findIdx? (· == '?') = none := by
    rw [List.findIdx?_eq_none_iff]
    intro c mem
    rw [beq_eq_false_iff_ne]
    rintro rfl
    rcases List.mem_append.mp mem with inName | inValue
    · exact mark inName
    · exact not_mem_of_plain plain '?' (by decide) (by simpa using inValue)
  have first : (name.toList ++ ':' :: value.toList).findIdx? (· == ':') =
      some name.toList.length := by
    have none : name.toList.findIdx? (· == ':') = none := by
      rw [List.findIdx?_eq_none_iff]
      intro c mem
      rw [beq_eq_false_iff_ne]
      rintro rfl
      exact colon mem
    simp [List.findIdx?_append, none, List.findIdx?_cons]
  have decoded : decodeUriComponent U.decode value = value := by
    simp [decodeUriComponent, laws.decode_eq_self plain]
  simp only [parse, whole, noMark, first, minIdx]
  simp [decoded]

def render (U : Percent.Codec) (param : String × String) : String :=
  param.1 ++ "=" ++ U.encode param.2

theorem parse_render (laws : U.Laws) (name value : String) (params : List (String × String))
    (colon : ':' ∉ name.toList) (mark : '?' ∉ name.toList)
    (plain : ∀ c ∈ value.toList, Percent.plain c = true)
    (keys : ∀ param ∈ params, ∀ c ∈ param.1.toList, Percent.plain c = true) :
    parse U.decode
        (name ++ ":" ++ value ++ "?" ++ String.intercalate "&" (params.map (render U))) =
      ⟨name, some value, params⟩ := by
  have absent : '?' ∉ (name ++ ":" ++ value).toList := by
    have inValue : '?' ∉ value.toList := not_mem_of_plain plain '?' (by decide)
    simp [mark, inValue]
  have apart : ∀ pair ∈ params.map (render U), '&' ∉ pair.toList := by
    intro pair mem
    obtain ⟨param, listed, rfl⟩ := List.mem_map.mp mem
    have inKey : '&' ∉ param.1.toList := not_mem_of_plain (keys param listed) '&' (by decide)
    have inText : '&' ∉ (U.encode param.2).toList := not_mem_encode laws (by decide) (by decide)
    simp [render, inKey, inText]
  have kept : (params.map (render U)).filter (!·.isEmpty) = params.map (render U) := by
    rw [List.filter_eq_self]
    intro pair mem
    obtain ⟨param, -, rfl⟩ := List.mem_map.mp mem
    simp [render]
  have read : (params.map (render U)).map (parsePair U.decode) = params := by
    rw [List.map_map]
    refine (List.map_congr_left fun param mem => ?_).trans (List.map_id params)
    exact parsePair_encode laws (keys param mem) param.2
  rw [parse_query _ absent, parse_positional laws colon mark plain,
    parseQuery_intercalate _ apart, kept, read]

end ScopeSyntax

/-! ## Each resource -/

theorem encode_asStr (laws : U.Laws) (action : RepoAction) : U.encode action.asStr = action.asStr :=
  laws.encode_eq_self (List.all_eq_true.mp (by cases action <;> decide))

theorem parse_repoText (laws : U.Laws) {collection : String} (valid : isNsid collection = true)
    (action : RepoAction) :
    RepoPermission.parse U.decode ("repo:" ++ collection ++ "?action=" ++ action.asStr) =
      some ⟨[collection], [action]⟩ := by
  have read := ScopeSyntax.parse_render laws "repo" collection [("action", action.asStr)]
    (by decide) (by decide) (plain_of_isNsid valid) (by simp; decide)
  have text : "repo" ++ ":" ++ collection ++ "?" ++
      String.intercalate "&" ([("action", action.asStr)].map (ScopeSyntax.render U)) =
      "repo:" ++ collection ++ "?action=" ++ action.asStr := by
    rw [← String.toList_inj]
    simp [ScopeSyntax.render, encode_asStr laws]
  rw [text] at read
  rw [RepoPermission.parse, ScopeSyntax.resource, read]
  have listed : isNsidOrWildcard collection = true := by simp [isNsidOrWildcard, valid]
  cases action <;>
    simp [ScopeSyntax.hasOnlyKnownKeys, ScopeSyntax.keys, ScopeSyntax.positionalConflicts,
      ScopeSyntax.getMulti, ScopeSyntax.multiOrPositional, RepoPermission.fromParts, listed,
      RepoAction.parse, RepoAction.asStr]

theorem parse_rpcText (laws : U.Laws) {lxm aud : String} (valid : isNsid lxm = true)
    (method : lxm ≠ "*")
    (audience : aud = "*" ∨ isAbsoluteDidRef aud = true) :
    RpcPermission.parse U.decode ("rpc:" ++ lxm ++ "?aud=" ++ U.encode aud) =
      some ⟨aud, [lxm]⟩ := by
  have read := ScopeSyntax.parse_render laws "rpc" lxm [("aud", aud)] (by decide) (by decide)
    (plain_of_isNsid valid) (by simp; decide)
  have text : "rpc" ++ ":" ++ lxm ++ "?" ++
      String.intercalate "&" ([("aud", aud)].map (ScopeSyntax.render U)) =
      "rpc:" ++ lxm ++ "?aud=" ++ U.encode aud := by
    rw [← String.toList_inj]
    simp [ScopeSyntax.render]
  rw [text] at read
  rw [RpcPermission.parse, ScopeSyntax.resource, read]
  have listed : isNsidOrWildcard lxm = true := by simp [isNsidOrWildcard, valid]
  have pinned : ¬ (aud ≠ "*" ∧ isAbsoluteDidRef aud = false) := by grind
  simp [ScopeSyntax.hasOnlyKnownKeys, ScopeSyntax.keys, ScopeSyntax.positionalConflicts,
    ScopeSyntax.getMulti, ScopeSyntax.getSingle, SingleParam.ok, ScopeSyntax.multiOrPositional,
    RpcPermission.fromParts, listed, pinned, method.symm]

def given {α : Type} (values : List α) : Option (List α) :=
  if values.isEmpty then none else some values

namespace SpacePermission

structure Canonical (p : SpacePermission) : Prop where
  spaceType : isNsidOrWildcard p.spaceType = true
  authority : p.authority = "self" ∨ p.authority = "*" ∨ isValidDid p.authority = true
  skey : p.skey = "*" ∨ isValidRecordKey p.skey = true
  collection : collectionsFrom (given p.collection) = some p.collection
  action : enumeratedFrom SpaceAction.all SpaceAction.byDefault SpaceAction.parse
    (given (p.action.map SpaceAction.asStr)) = some p.action
  manage : enumeratedFrom ManageOp.all [] ManageOp.parse (given (p.manage.map ManageOp.asStr)) =
    some p.manage

theorem collectionsFrom_given {values : Option (List String)} {collection : List String}
    (h : collectionsFrom values = some collection) :
    collectionsFrom (given collection) = some collection := by
  cases values with
  | none =>
    obtain rfl : [] = collection := by simpa [collectionsFrom] using h
    rfl
  | some values =>
    simp only [collectionsFrom] at h
    split_ifs at h with invalid
    obtain rfl : normalizeCollections values = collection := by simpa using h
    simp only [Bool.or_eq_true, Bool.not_eq_true', not_or, Bool.not_eq_true,
      Bool.not_eq_false, List.isEmpty_eq_false_iff] at invalid
    obtain ⟨nonempty, valid⟩ := invalid
    by_cases wild : "*" ∈ values
    · have star : normalizeCollections values = ["*"] := by simp [normalizeCollections, wild]
      rw [star]
      decide
    · have members (c : String) : c ∈ normalizeCollections values ↔ c ∈ values := by
        simp [normalizeCollections, wild]
      have listed : (normalizeCollections values).isEmpty = false := by
        rw [isEmpty_congr members]
        simpa using nonempty
      rw [given, if_neg (by simp [listed]), collectionsFrom_congr members]
      simp [collectionsFrom, nonempty, valid]

theorem enumeratedFrom_given {α : Type} [DecidableEq α] {all absent : List α}
    {parse : String → Option α} {asStr : α → String} (complete : ∀ a, a ∈ all)
    (parse_asStr : ∀ a, parse (asStr a) = some a) {values : Option (List String)} {found : List α}
    (ordered : all.filter (fun a => absent.contains a) = absent)
    (h : enumeratedFrom all absent parse values = some found) :
    enumeratedFrom all absent parse (given (found.map asStr)) = some found := by
  have again : all.filter (fun a => found.contains a) = found ∧ (found = [] → absent = []) := by
    cases values with
    | none =>
      obtain rfl : absent = found := by simpa [enumeratedFrom] using h
      exact ⟨ordered, id⟩
    | some values =>
      simp only [enumeratedFrom] at h
      split_ifs at h with empty
      obtain ⟨parsed, read, rfl⟩ := Option.map_eq_some_iff.mp h
      refine ⟨List.filter_congr fun a mem => by simp [mem], fun none => ?_⟩
      -- There is a value, it was parsed, and the list of all has what it was parsed to.
      obtain ⟨value, listed⟩ := List.exists_mem_of_ne_nil values (by simpa using empty)
      rcases mapM_cases parse values with ⟨fails, -⟩ | ⟨parsed', read', good, members⟩
      · simp [read] at fails
      · obtain ⟨a, parses⟩ := Option.ne_none_iff_exists'.mp (good value listed)
        obtain rfl : parsed' = parsed := by simpa [read] using read'.symm
        have mem : a ∈ all.filter fun a => parsed'.contains a :=
          List.mem_filter.mpr ⟨complete a, by simpa using (members a).mpr ⟨value, listed, parses⟩⟩
        rw [none] at mem
        cases mem
  obtain ⟨kept, ends⟩ := again
  cases found with
  | nil =>
    rw [ends rfl]
    rfl
  | cons first rest =>
    have read : ((first :: rest).map asStr).mapM parse = some (first :: rest) := by
      induction first :: rest with
      | nil => rfl
      | cons a as ih => simp [parse_asStr, ih]
    simp only [given, List.map_cons, List.isEmpty_cons, Bool.false_eq_true, if_false]
    rw [enumeratedFrom, List.isEmpty_cons, if_neg (by simp), ← List.map_cons, read,
      Option.map_some, kept]

theorem canonical_of_fromParts {spaceType : String} {authority skey : Option String}
    {collection action manage : Option (List String)} {p : SpacePermission}
    (h : fromParts spaceType authority skey collection action manage = some p) : Canonical p := by
  unfold fromParts at h
  dsimp only at h
  split_ifs at h with type auth key
  obtain ⟨collections, readCollections, h⟩ := Option.bind_eq_some_iff.mp h
  obtain ⟨actions, readActions, h⟩ := Option.bind_eq_some_iff.mp h
  obtain ⟨ops, readOps, h⟩ := Option.bind_eq_some_iff.mp h
  cases h
  exact {
    spaceType := by simpa using type
    authority := by grind
    skey := by grind
    collection := collectionsFrom_given readCollections
    action := enumeratedFrom_given (by intro a; cases a <;> decide) (by intro a; cases a <;> rfl)
      (by decide) readActions
    manage := enumeratedFrom_given (by intro a; cases a <;> decide) (by intro a; cases a <;> rfl)
      (by decide) readOps }

def params (p : SpacePermission) : List (String × String) :=
  [("authority", p.authority), ("skey", p.skey)] ++ p.collection.map (("collection", ·)) ++
    p.action.map (fun action => ("action", action.asStr)) ++
    p.manage.map (fun op => ("manage", op.asStr))

theorem spacePairs_eq (laws : U.Laws) (p : SpacePermission) :
    spacePairs U p = p.params.map (ScopeSyntax.render U) := by
  have actions (a : SpaceAction) : U.encode a.asStr = a.asStr :=
    laws.encode_eq_self (List.all_eq_true.mp (by cases a <;> decide))
  have ops (m : ManageOp) : U.encode m.asStr = m.asStr :=
    laws.encode_eq_self (List.all_eq_true.mp (by cases m <;> decide))
  simp [spacePairs, params, ScopeSyntax.render, Function.comp_def, actions, ops]

theorem parse_spaceText (laws : U.Laws) {p : SpacePermission} (canonical : Canonical p)
    (named : isNsid p.spaceType = true) : parse U.decode (spaceText U p) = some p := by
  have known : ∀ param ∈ p.params,
      param.1 ∈ ["authority", "skey", "collection", "action", "manage"] := by
    simp only [params, List.mem_append, List.mem_cons, List.mem_map, List.not_mem_nil, or_false]
    rintro param ((((rfl | rfl) | ⟨_, -, rfl⟩) | ⟨_, -, rfl⟩) | ⟨_, -, rfl⟩) <;> simp
  have text : spaceText U p = "space" ++ ":" ++ p.spaceType ++ "?" ++
      String.intercalate "&" (p.params.map (ScopeSyntax.render U)) := by
    rw [spaceText, spacePairs_eq laws, ← String.toList_inj]
    simp
  have keys : ∀ param ∈ p.params, ∀ c ∈ param.1.toList, Percent.plain c = true := by
    have plain : ∀ key ∈ ["authority", "skey", "collection", "action", "manage"],
        key.toList.all Percent.plain = true := by decide
    exact fun param mem => List.all_eq_true.mp (plain _ (known param mem))
  have multi {key : String} {values : List String}
      (found : p.params.filter (·.1 == key) = values.map ((key, ·))) :
      (⟨"space", some p.spaceType, p.params⟩ : ScopeSyntax).getMulti key = given values := by
    unfold ScopeSyntax.getMulti given
    rw [found, List.map_map]
    cases values <;> simp
  have authority : p.params.filter (·.1 == "authority") = [("authority", p.authority)] := by
    simp [params, List.filter_map, Function.comp_def]
  have skey : p.params.filter (·.1 == "skey") = [("skey", p.skey)] := by
    simp [params, List.filter_map, Function.comp_def]
  have collection : p.params.filter (·.1 == "collection") =
      p.collection.map (("collection", ·)) := by
    simp [params, List.filter_map, Function.comp_def]
  have action : p.params.filter (·.1 == "action") =
      (p.action.map SpaceAction.asStr).map (("action", ·)) := by
    simp [params, List.filter_map, Function.comp_def]
  have manage : p.params.filter (·.1 == "manage") =
      (p.manage.map ManageOp.asStr).map (("manage", ·)) := by
    simp [params, List.filter_map, Function.comp_def]
  have type : p.params.filter (·.1 == "type") = ([] : List String).map (("type", ·)) := by
    simp [params, List.filter_map, Function.comp_def]
  rw [parse_eq_fromSyntax, text,
    ScopeSyntax.parse_render laws _ _ _ (by decide) (by decide) (plain_of_isNsid named) keys,
    fromSyntax]
  have onlyKnown : (⟨"space", some p.spaceType, p.params⟩ : ScopeSyntax).hasOnlyKnownKeys
      ["authority", "skey", "collection", "action", "manage"] = true :=
    ScopeSyntax.hasOnlyKnownKeys_iff.mpr known
  obtain ⟨spaceType, auth, key, collections, actions, ops⟩ := canonical
  simp only [onlyKnown, ScopeSyntax.positionalConflicts, multi type, multi collection,
    multi action, multi manage, ScopeSyntax.getSingle, authority, skey, fromParts, collections,
    actions, ops]
  have fields : isNsidOrWildcard p.spaceType = true ∧
      (¬ p.authority = "self" → ¬ p.authority = "*" → isValidDid p.authority = true) ∧
        (¬ p.skey = "*" → isValidRecordKey p.skey = true) :=
    ⟨spaceType, by grind, by grind⟩
  simpa [given, SingleParam.ok] using fields

end SpacePermission

/-! ## Permission sets -/

open IncludeScope

/-- The strings of a permission mean grants that together allow what it allows. -/
def Faithful (U : Percent.Codec) (permission : IncludedPermission) : Prop :=
  ∀ op, permission.grant.allows op = true ↔
    ∃ text ∈ permission.texts U, ∃ g, Grant.Of U.decode text g ∧ g.allows op = true

theorem exists_grant_iff {text : String} {g : Grant} (meaning : Grant.Of U.decode text g)
    (op : Operation) :
    (∃ g', Grant.Of U.decode text g' ∧ g'.allows op = true) ↔ g.allows op = true := by
  constructor
  · rintro ⟨g', meaning', allowed⟩
    rwa [meaning.unique meaning']
  · exact fun allowed => ⟨g, meaning, allowed⟩

theorem faithful_repo (laws : U.Laws) {p : RepoPermission}
    (valid : ∀ c ∈ p.collection, isNsid c = true)
    (concrete : ∀ c ∈ p.collection, c ≠ "*") : Faithful U (.repo p) := by
  intro op
  have each : (∃ text ∈ repoTexts p, ∃ g, Grant.Of U.decode text g ∧ g.allows op = true) ↔
      ∃ c ∈ p.collection, ∃ a ∈ p.action, (Grant.repo ⟨[c], [a]⟩).allows op = true := by
    simp only [repoTexts, List.mem_flatMap, List.mem_map]
    constructor
    · rintro ⟨text, ⟨c, mem, a, act, rfl⟩, found⟩
      have meaning : Grant.Of U.decode _ (.repo ⟨[c], [a]⟩) := parse_repoText laws (valid c mem) a
      exact ⟨c, mem, a, act, (exists_grant_iff meaning op).mp found⟩
    · rintro ⟨c, mem, a, act, allowed⟩
      have meaning : Grant.Of U.decode _ (.repo ⟨[c], [a]⟩) := parse_repoText laws (valid c mem) a
      exact ⟨_, ⟨c, mem, a, act, rfl⟩, _, meaning, allowed⟩
  refine Iff.trans ?_ each.symm
  cases op with
  | repo collection action =>
    simp only [IncludedPermission.grant, Grant.allows, RepoPermission.isMatch, Bool.and_eq_true,
      Bool.or_eq_true, List.contains_iff_mem, List.mem_singleton]
    grind
  | _ => simp [IncludedPermission.grant, Grant.allows]

theorem faithful_rpc (laws : U.Laws) {p : RpcPermission} (valid : ∀ lxm ∈ p.lxm, isNsid lxm = true)
    (concrete : ∀ lxm ∈ p.lxm, lxm ≠ "*")
    (audience : p.aud = "*" ∨ isAbsoluteDidRef p.aud = true) : Faithful U (.rpc p) := by
  intro op
  have each : (∃ text ∈ rpcTexts U p, ∃ g, Grant.Of U.decode text g ∧ g.allows op = true) ↔
      ∃ lxm ∈ p.lxm, (Grant.rpc ⟨p.aud, [lxm]⟩).allows op = true := by
    simp only [rpcTexts, List.mem_map]
    constructor
    · rintro ⟨text, ⟨lxm, mem, rfl⟩, found⟩
      have meaning : Grant.Of U.decode _ (.rpc ⟨p.aud, [lxm]⟩) :=
        parse_rpcText laws (valid lxm mem) (concrete lxm mem) audience
      exact ⟨lxm, mem, (exists_grant_iff meaning op).mp found⟩
    · rintro ⟨lxm, mem, allowed⟩
      have meaning : Grant.Of U.decode _ (.rpc ⟨p.aud, [lxm]⟩) :=
        parse_rpcText laws (valid lxm mem) (concrete lxm mem) audience
      exact ⟨_, ⟨lxm, mem, rfl⟩, _, meaning, allowed⟩
  refine Iff.trans ?_ each.symm
  cases op with
  | rpc lxm aud =>
    simp only [IncludedPermission.grant, Grant.allows, RpcPermission.isMatch, Bool.and_eq_true,
      Bool.or_eq_true, List.contains_iff_mem, List.mem_singleton, beq_iff_eq]
    grind
  | _ => simp [IncludedPermission.grant, Grant.allows]

theorem faithful_space (laws : U.Laws) {p : SpacePermission} (canonical : p.Canonical)
    (named : isNsid p.spaceType = true) : Faithful U (.space p) := by
  intro op
  have meaning : Grant.Of U.decode (spaceText U p) (.space p) :=
    SpacePermission.parse_spaceText laws canonical named
  simp only [IncludedPermission.texts, List.mem_singleton, exists_eq_left]
  exact (exists_grant_iff meaning op).symm

theorem faithful_of_mem_expand (laws : U.Laws) {inc : IncludeScope} {set : LexPermissionSet}
    {permission : IncludedPermission} (h : permission ∈ inc.expand set) :
    Faithful U permission := by
  obtain ⟨found, allowed⟩ := List.mem_filter.mp h
  obtain ⟨entry, -, found⟩ := List.mem_filterMap.mp found
  have contained := contains_of_expandOne found allowed
  cases permission with
  | repo p =>
    exact faithful_repo laws (fun c mem => (contained.2 c mem).1)
      fun c mem => (contained.2 c mem).2.1
  | rpc p =>
    obtain ⟨-, governs, aud⟩ := contained
    exact faithful_rpc laws (fun lxm mem => (governs lxm mem).1)
      (fun lxm mem => (governs lxm mem).2.1)
      (aud.imp_right fun own => inc.isAbsoluteDidRef_aud _ own)
  | space p =>
    obtain ⟨named, governs⟩ := contained
    have read : expandSpace entry = some p := by
      simpa [expandOne, named] using found
    unfold expandSpace at read
    split_ifs at read
    obtain ⟨spaceType, -, parts⟩ := Option.bind_eq_some_iff.mp read
    exact faithful_space laws (SpacePermission.canonical_of_fromParts parts) governs.1

theorem exists_expand_of_mem {builtin registry : String → Option Json} {scope : String}
    {permission : IncludedPermission}
    (h : permission ∈ includedPermissions U builtin registry scope) :
    ∃ (inc : IncludeScope) (set : LexPermissionSet), permission ∈ inc.expand set := by
  unfold includedPermissions at h
  cases parsed : IncludeScope.parse U.decode scope with
  | none => simp [parsed] at h
  | some inc =>
    simp only [parsed, Option.bind_eq_bind, Option.bind_some] at h
    cases document : (builtin inc.nsid).or (registry inc.nsid) with
    | none => simp [document] at h
    | some raw =>
      simp only [document, Option.bind_some] at h
      cases read : lexPermissionSet raw with
      | none => simp [read] at h
      | some set => exact ⟨inc, set, by simpa [read] using h⟩

/-- For every include scope and whatever document its permission set is found in, the scope
strings that are produced, parsed again, allow exactly the operations that the permissions
of the set allow. -/
theorem expanded_texts_allow_iff (U : Percent.Codec) (laws : U.Laws)
    (builtin registry : String → Option Json) (scope : String) (op : Operation) :
    (ScopePermissions.fromScopes (expandPermissionSet U builtin registry scope [])).allows
        U.decode op = true ↔
      ∃ permission ∈ includedPermissions U builtin registry scope,
        permission.grant.allows op = true := by
  have faithful : ∀ permission ∈ includedPermissions U builtin registry scope,
      Faithful U permission := by
    intro permission mem
    obtain ⟨inc, set, expanded⟩ := exists_expand_of_mem mem
    exact faithful_of_mem_expand laws expanded
  rw [ScopePermissions.allows_iff]
  simp only [ScopePermissions.fromScopes, expandPermissionSet, List.nil_append, List.mem_flatMap]
  constructor
  · rintro ⟨text, ⟨permission, mem, listed⟩, allowed⟩
    exact ⟨permission, mem, (faithful permission mem op).mpr ⟨text, listed, allowed⟩⟩
  · rintro ⟨permission, mem, allowed⟩
    obtain ⟨text, listed, allowed⟩ := (faithful permission mem op).mp allowed
    exact ⟨text, ⟨permission, mem, listed⟩, allowed⟩

def feedSet : Json := .object [("defs", .object [("main", .object [("permissions", .array [
  .object [("resource", .string "rpc"), ("lxm", .array [.string "com.example.getFeed"]),
    ("inheritAud", .bool true)]])])])]

theorem expanded_texts_allow_feed :
    (ScopePermissions.fromScopes (expandPermissionSet Percent.codec (fun _ => some feedSet)
      (fun _ => none) "include:com.example.authBasic?aud=did:web:x.com%23svc" [])).allows
        Percent.codec.decode (.rpc "com.example.getFeed" "did:web:x.com#svc") = true := by
  refine (expanded_texts_allow_iff Percent.codec Percent.codec_laws _ _ _ _).mpr
    ⟨.rpc ⟨"did:web:x.com#svc", ["com.example.getFeed"]⟩, ?_, ?_⟩
  all_goals decide +kernel

end HappyView.Scopes
