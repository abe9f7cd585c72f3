import HappyView.Scopes.QueryText
import HappyView.Scopes.Resources
import Mathlib.Data.List.Dedup
import Mathlib.Logic.Relation

/-!
# The order of parameters

The pairs of a space scope's query may be written in any order, and the values of `collection`,
`action` and `manage` repeated, without changing the permission.
-/

namespace HappyView.Scopes

open HappyView.Foundation

def multiValued : List String := ["collection", "action", "manage"]

/-- The same pairs, and as many of each key that is not multi-valued. -/
structure Alike (params params' : List (String × String)) : Prop where
  mem : ∀ pair, pair ∈ params ↔ pair ∈ params'
  single : ∀ key ∉ multiValued, (params.filter (·.1 == key)).Perm (params'.filter (·.1 == key))

theorem Alike.of_perm {params params' : List (String × String)} (h : params.Perm params') :
    Alike params params' :=
  ⟨fun _ => h.mem_iff, fun _ _ => h.filter _⟩

theorem Alike.cons {params : List (String × String)} {pair : String × String}
    (listed : pair ∈ params) (multi : pair.1 ∈ multiValued) : Alike params (pair :: params) where
  mem other := by
    rw [List.mem_cons]
    constructor
    · exact .inr
    · rintro (rfl | mem)
      · exact listed
      · exact mem
  single key other := by
    have apart : (pair.1 == key) = false := by
      rw [beq_eq_false_iff_ne]
      rintro rfl
      exact other multi
    rw [List.filter_cons_of_neg (by simp [apart])]

theorem Alike.trans {first second third : List (String × String)} (h : Alike first second)
    (h' : Alike second third) : Alike first third :=
  ⟨fun pair => (h.mem pair).trans (h'.mem pair),
    fun key once => (h.single key once).trans (h'.single key once)⟩

/-! ## Reading alike parameters -/

namespace ScopeSyntax

theorem mem_keys {s : ScopeSyntax} {key : String} :
    key ∈ s.keys ↔ ∃ pair ∈ s.params, pair.1 = key := by
  simpa [keys] using mem_foldl_distinct (·.1) s.params [] key

variable {s s' : ScopeSyntax}

theorem hasOnlyKnownKeys_iff {known : List String} :
    s.hasOnlyKnownKeys known = true ↔ ∀ pair ∈ s.params, pair.1 ∈ known := by
  simp only [hasOnlyKnownKeys, List.all_eq_true, mem_keys, List.contains_iff_mem]
  grind

theorem hasOnlyKnownKeys_congr (alike : Alike s.params s'.params) (known : List String) :
    s.hasOnlyKnownKeys known = s'.hasOnlyKnownKeys known := by
  rw [Bool.eq_iff_iff, hasOnlyKnownKeys_iff, hasOnlyKnownKeys_iff]
  simp only [alike.mem]

theorem getMulti_congr (alike : Alike s.params s'.params) (key : String) :
    (s.getMulti key = none ∧ s'.getMulti key = none) ∨
      ∃ values values', s.getMulti key = some values ∧ s'.getMulti key = some values' ∧
        ∀ value, value ∈ values ↔ value ∈ values' := by
  have same : ∀ value, value ∈ (s.params.filter (·.1 == key)).map (·.2) ↔
      value ∈ (s'.params.filter (·.1 == key)).map (·.2) := by
    simp [alike.mem]
  unfold getMulti
  split <;> split <;> simp_all

theorem getSingle_congr (alike : Alike s.params s'.params) (key : String)
    (once : key ∉ multiValued) : s.getSingle key = s'.getSingle key := by
  have perm := alike.single key once
  unfold getSingle
  split
  · rename_i none
    rw [none, List.nil_perm] at perm
    rw [perm]
  · rename_i pair one
    rw [one, List.singleton_perm] at perm
    rw [← perm]
  · rename_i first second rest several
    have length := perm.length_eq
    rw [several] at length
    split <;> simp_all

end ScopeSyntax

namespace SpacePermission

theorem normalizeCollections_congr {values values' : List String}
    (same : ∀ value, value ∈ values ↔ value ∈ values') :
    normalizeCollections values = normalizeCollections values' := by
  have sorted (l : List String) : (l.insertionSort (· ≤ ·)).dedup.Pairwise (· ≤ ·) :=
    (List.pairwise_insertionSort (· ≤ ·) l).sublist (List.dedup_sublist _)
  have perm : (values.insertionSort (· ≤ ·)).dedup.Perm (values'.insertionSort (· ≤ ·)).dedup := by
    rw [List.perm_ext_iff_of_nodup (List.nodup_dedup _) (List.nodup_dedup _)]
    simpa using same
  have equal := perm.eq_of_pairwise (fun a b _ _ h h' => le_antisymm h h') (sorted _) (sorted _)
  simp only [normalizeCollections, List.contains_iff_mem, same, equal]

theorem isEmpty_congr {values values' : List String}
    (same : ∀ value, value ∈ values ↔ value ∈ values') : values.isEmpty = values'.isEmpty := by
  rw [Bool.eq_iff_iff, List.isEmpty_iff, List.isEmpty_iff]
  simp only [List.eq_nil_iff_forall_not_mem, same]

theorem collectionsFrom_congr {values values' : List String}
    (same : ∀ value, value ∈ values ↔ value ∈ values') :
    collectionsFrom (some values) = collectionsFrom (some values') := by
  have empty := isEmpty_congr same
  have valid : values.all isNsidOrWildcard = values'.all isNsidOrWildcard := by
    rw [Bool.eq_iff_iff]
    simp [same]
  simp only [collectionsFrom, empty, valid, normalizeCollections_congr same]

theorem mapM_cases {α : Type} (parse : String → Option α) (values : List String) :
    (values.mapM parse = none ∧ ∃ value ∈ values, parse value = none) ∨
      ∃ parsed, values.mapM parse = some parsed ∧ (∀ value ∈ values, parse value ≠ none) ∧
        ∀ a, a ∈ parsed ↔ ∃ value ∈ values, parse value = some a := by
  induction values with
  | nil => exact .inr ⟨[], by simp, by simp, by simp⟩
  | cons value values ih =>
    cases first : parse value with
    | none => exact .inl ⟨by simp [first], value, by simp, first⟩
    | some a =>
      rcases ih with ⟨fails, bad, mem, none⟩ | ⟨parsed, succeeds, good, members⟩
      · exact .inl ⟨by simp [first, fails], bad, by simp [mem], none⟩
      · refine .inr ⟨a :: parsed, by simp [first, succeeds], by simp_all, fun b => ?_⟩
        simp [members, first, eq_comm]

theorem enumeratedFrom_congr {α : Type} [DecidableEq α] {all absent : List α}
    {parse : String → Option α} {values values' : List String}
    (same : ∀ value, value ∈ values ↔ value ∈ values') :
    enumeratedFrom all absent parse (some values) =
      enumeratedFrom all absent parse (some values') := by
  have empty := isEmpty_congr same
  have parsed : (values.mapM parse).map (fun parsed => all.filter fun a => parsed.contains a) =
      (values'.mapM parse).map fun parsed => all.filter fun a => parsed.contains a := by
    rcases mapM_cases parse values with ⟨fails, bad, mem, none⟩ | ⟨parsed, found, good, members⟩ <;>
      rcases mapM_cases parse values' with
        ⟨fails', bad', mem', none'⟩ | ⟨parsed', found', good', members'⟩
    · rw [fails, fails']
    · exact absurd none (good' bad ((same bad).mp mem))
    · exact absurd none' (good bad' ((same bad').mpr mem'))
    · have equal : ∀ a, a ∈ parsed ↔ a ∈ parsed' := by simp [members, members', same]
      simp only [found, found', Option.map_some]
      congr 1
      refine List.filter_congr fun a _ => ?_
      rw [Bool.eq_iff_iff, List.contains_iff_mem, List.contains_iff_mem, equal]
  simp only [enumeratedFrom, empty, parsed]

def fromSyntax (s : ScopeSyntax) : Option SpacePermission :=
  if s.scopePrefix ≠ "space" then none
  else if !s.hasOnlyKnownKeys ["authority", "skey", "collection", "action", "manage"] then none
  else if s.positionalConflicts "type" then none
  else do
    let spaceType ← s.positional
    let authority ← (s.getSingle "authority").ok
    let skey ← (s.getSingle "skey").ok
    fromParts spaceType authority skey (s.getMulti "collection") (s.getMulti "action")
      (s.getMulti "manage")

theorem parse_eq_fromSyntax (urldecode : String → Option String) (scope : String) :
    parse urldecode scope = fromSyntax (ScopeSyntax.parse urldecode scope) := by
  unfold parse fromSyntax ScopeSyntax.resource
  simp only []
  split_ifs <;> rfl

theorem fromSyntax_congr {s s' : ScopeSyntax} (resource : s.scopePrefix = s'.scopePrefix)
    (positional : s.positional = s'.positional) (alike : Alike s.params s'.params) :
    fromSyntax s = fromSyntax s' := by
  have conflicts : s.positionalConflicts "type" = s'.positionalConflicts "type" := by
    have present : (s.getMulti "type").isSome = (s'.getMulti "type").isSome := by
      rcases ScopeSyntax.getMulti_congr alike "type" with ⟨h, h'⟩ | ⟨_, _, h, h', -⟩ <;>
        simp [h, h']
    simp [ScopeSyntax.positionalConflicts, positional, present]
  have collections : collectionsFrom (s.getMulti "collection") =
      collectionsFrom (s'.getMulti "collection") := by
    rcases ScopeSyntax.getMulti_congr alike "collection" with ⟨h, h'⟩ | ⟨_, _, h, h', same⟩
    · rw [h, h']
    · rw [h, h', collectionsFrom_congr same]
  have enumerated {α : Type} [DecidableEq α] (all absent : List α) (parse : String → Option α)
      (key : String) : enumeratedFrom all absent parse (s.getMulti key) =
        enumeratedFrom all absent parse (s'.getMulti key) := by
    rcases ScopeSyntax.getMulti_congr alike key with ⟨h, h'⟩ | ⟨_, _, h, h', same⟩
    · rw [h, h']
    · rw [h, h', enumeratedFrom_congr same]
  have parts (spaceType : String) (authority skey : Option String) :
      fromParts spaceType authority skey (s.getMulti "collection") (s.getMulti "action")
          (s.getMulti "manage") =
        fromParts spaceType authority skey (s'.getMulti "collection") (s'.getMulti "action")
          (s'.getMulti "manage") := by
    simp only [fromParts, collections, enumerated]
  simp only [fromSyntax, resource, positional, ScopeSyntax.hasOnlyKnownKeys_congr alike, conflicts,
    ScopeSyntax.getSingle_congr alike "authority" (by decide),
    ScopeSyntax.getSingle_congr alike "skey" (by decide), parts]

end SpacePermission

/-! ## Rewriting the query -/

/-- One change to the query of a scope: its pairs in another order, or one more pair for a
value that a multi-valued parameter has already. -/
inductive Requeried (urldecode : String → Option String) : String → String → Prop
  | permute {base query query' : String} (absent : '?' ∉ base.toList)
    (perm : (Text.split '&' query).Perm (Text.split '&' query')) :
    Requeried urldecode (base ++ "?" ++ query) (base ++ "?" ++ query')
  | again {base query query' pair other : String} (absent : '?' ∉ base.toList)
    (mem : pair ∈ Text.split '&' query) (given : pair ≠ "") (givenOther : other ≠ "")
    (more : (other :: Text.split '&' query).Perm (Text.split '&' query'))
    (same : ScopeSyntax.parsePair urldecode other = ScopeSyntax.parsePair urldecode pair)
    (multi : (ScopeSyntax.parsePair urldecode pair).1 ∈ multiValued) :
    Requeried urldecode (base ++ "?" ++ query) (base ++ "?" ++ query')

variable {urldecode : String → Option String}

theorem Requeried.parse_eq {scope scope' : String} (h : Requeried urldecode scope scope') :
    SpacePermission.parse urldecode scope = SpacePermission.parse urldecode scope' := by
  rw [SpacePermission.parse_eq_fromSyntax, SpacePermission.parse_eq_fromSyntax]
  cases h with
  | permute absent perm =>
    rw [ScopeSyntax.parse_query _ absent, ScopeSyntax.parse_query _ absent]
    exact SpacePermission.fromSyntax_congr rfl rfl (.of_perm ((perm.filter _).map _))
  | @again base query query' pair other absent mem given givenOther more same multi =>
    rw [ScopeSyntax.parse_query _ absent, ScopeSyntax.parse_query _ absent]
    refine SpacePermission.fromSyntax_congr rfl rfl ?_
    have listed : ScopeSyntax.parsePair urldecode pair ∈ ScopeSyntax.parseQuery urldecode query :=
      List.mem_map_of_mem (List.mem_filter.mpr ⟨mem, by simpa using given⟩)
    have kept : ((other :: Text.split '&' query).filter (!·.isEmpty)).map
        (ScopeSyntax.parsePair urldecode) =
        ScopeSyntax.parsePair urldecode pair :: ScopeSyntax.parseQuery urldecode query := by
      rw [List.filter_cons_of_pos (by simpa using givenOther), List.map_cons, same]
      rfl
    have perm := (more.filter (!·.isEmpty)).map (ScopeSyntax.parsePair urldecode)
    rw [kept] at perm
    exact (Alike.cons listed multi).trans (.of_perm perm)

/-- Let the query of a scope be rewritten any number of times, by putting its pairs in
another order or by repeating values of multi-valued parameters. Then it is a space scope
as before, or still none, and it allows the same operations. -/
theorem space_scope_requeried {scope scope' : String}
    (h : Relation.ReflTransGen (Requeried urldecode) scope scope') :
    (SpacePermission.parse urldecode scope').isSome =
        (SpacePermission.parse urldecode scope).isSome ∧
      ∀ spaceType authority skey target,
        (SpacePermission.parse urldecode scope').any
            (·.isMatch spaceType authority skey target) =
          (SpacePermission.parse urldecode scope).any
            (·.isMatch spaceType authority skey target) := by
  have equal : SpacePermission.parse urldecode scope' = SpacePermission.parse urldecode scope := by
    induction h with
    | refl => rfl
    | tail _ step ih => rw [← step.parse_eq, ih]
  rw [equal]
  exact ⟨rfl, fun _ _ _ _ => rfl⟩

/-- The actions of a forum's scope, in another order and one of them twice. -/
theorem space_scope_requeried_forum :
    (SpacePermission.parse some
      "space:com.example.forum?action=create&action=read&action=create").any
        (·.isMatch "com.example.forum" "self" "main" .read) = true := by
  have absent : '?' ∉ "space:com.example.forum".toList := by decide
  have swap : Requeried some ("space:com.example.forum" ++ "?" ++ "action=create&action=read")
      ("space:com.example.forum" ++ "?" ++ "action=read&action=create") :=
    .permute absent (by decide +kernel)
  have again : Requeried some ("space:com.example.forum" ++ "?" ++ "action=read&action=create")
      ("space:com.example.forum" ++ "?" ++ "action=create&action=read&action=create") :=
    @Requeried.again some _ _ _ "action=create" "action=create" absent (by decide +kernel)
      (by decide) (by decide) (by decide +kernel) rfl (by decide +kernel)
  have allowed := (space_scope_requeried (.tail (.single swap) again)).2 "com.example.forum"
    "self" "main" .read
  exact allowed.trans (by decide +kernel)

end HappyView.Scopes
