import HappyView.Error
import HappyView.Foundation.Json
import HappyView.Foundation.Walk

/-!
# Collecting a repo's operations

`collect_repo_ops` walks the pages of `listRepoOps` at the host of a repo, which chooses the
cursors. It stops when a page has no cursor, when a request or a page is bad, and when a page
gives the cursor it was asked with.

A host may lead it in a longer circle, and then it does not stop.
-/

namespace HappyView.Spaces.OpCollection

open HappyView.Foundation

/-! ## One page -/

inductive OpAction where
  | create
  | update
  | delete
  deriving DecidableEq

structure RepoOp where
  rev : String
  action : OpAction
  collection : String
  rkey : String
  cid : Option String
  prev : Option String
  value : Option Json

def strField (op : Json) (field : String) : Except AppError String :=
  require (.internal ("listRepoOps entry is missing " ++ field)) ((op.get field).bind Json.asString)

def nullableCid (op : Json) (field : String) : Option String := (op.get field).bind Json.asString

/-- The action is implied by which CIDs are null. -/
def opAction (cid prev : Option String) : Except AppError OpAction :=
  match cid, prev with
  | none, some _ => .ok .delete
  | some _, none => .ok .create
  | some _, some _ => .ok .update
  | none, none => .error (.internal "listRepoOps entry has neither cid nor prev")

def parseRepoOp (op : Json) : Except AppError RepoOp := do
  let cid := nullableCid op "cid"
  let prev := nullableCid op "prev"
  let action ← opAction cid prev
  let rev ← strField op "rev"
  let collection ← strField op "collection"
  let rkey ← strField op "rkey"
  let value := match op.get "value" with
    | none | some .null => none
    | some value => some value
  return ⟨rev, action, collection, rkey, cid, prev, value⟩

/-- A malformed entry fails the whole page. -/
def parseRepoOpsPage (body : Json) : Except AppError (List RepoOp × Option String) := do
  let entries ← require (.internal "listRepoOps returned no ops array")
    ((body.get "ops").bind Json.asArray)
  let ops ← entries.mapM parseRepoOp
  return (ops, (body.get "cursor").bind Json.asString)

/-! ## The loop -/

/-- The parameters of a request: with a cursor, the last revision seen goes along. -/
def requestParams (spaceUri authorDid : String) (since : Option String) (all : List RepoOp)
    (cursor : Option String) : List (String × String) :=
  [("space", spaceUri), ("repo", authorDid)] ++
    match cursor with
    | none => since.toList.map (("since", ·))
    | some c => ("cursor", c) :: all.getLast?.toList.map fun last => ("since", last.rev)

/-- The loop, up to `fuel` requests; `none` when it has not ended by then. -/
def collectRepoOps (spaceUri authorDid : String) (since : Option String)
    (fetch : List (String × String) → Except AppError Json) :
    Nat → List RepoOp → Option String → Option (Except AppError (List RepoOp))
  | 0, _, _ => none
  | fuel + 1, all, cursor =>
    match fetch (requestParams spaceUri authorDid since all cursor) >>= parseRepoOpsPage with
    | .error e => some (.error e)
    | .ok (ops, none) => some (.ok (all ++ ops))
    | .ok (ops, some next) =>
      if cursor = some next then
        some (.error (.internal "listRepoOps returned the same cursor twice"))
      else collectRepoOps spaceUri authorDid since fetch fuel (all ++ ops) (some next)

/-! ## Hosts whose answers depend on the cursor -/

def byCursor (host : Option String → Except AppError Json) (params : List (String × String)) :
    Except AppError Json :=
  host (params.lookup "cursor")

def nextCursor (host : Option String → Except AppError Json) (cursor : Option String) :
    Option String :=
  match host cursor >>= parseRepoOpsPage with
  | .ok (_, next) => next
  | .error _ => none

def cursors (host : Option String → Except AppError Json) : Set String :=
  {c | ∃ cursor, nextCursor host cursor = some c}

def Gives (host : Option String → Except AppError Json) (cursor : Option String)
    (next : Option String) : Prop :=
  ∃ c, nextCursor host cursor = some c ∧ next = some c

/-- No cursor that the host gives on the way leads back to itself through another one. -/
def NoLongCircle (host : Option String → Except AppError Json) : Prop :=
  ∀ c d, Relation.ReflTransGen (Gives host) none (some c) → nextCursor host (some c) = some d →
    d ≠ c → ¬ Relation.ReflTransGen (Gives host) (some d) (some c)

section

variable {spaceUri authorDid : String} {since : Option String} {all : List RepoOp}
  {cursor : Option String} {host : Option String → Except AppError Json} {fuel : Nat}

theorem lookup_requestParams :
    (requestParams spaceUri authorDid since all cursor).lookup "cursor" = cursor := by
  cases cursor with
  | none => cases since <;> rfl
  | some c => rfl

def advance (host : Option String → Except AppError Json) (cursor : Option String) :
    Option (Option String) :=
  match nextCursor host cursor with
  | none => none
  | some c => if cursor = some c then none else some (some c)

theorem isSome_collectRepoOps :
    (collectRepoOps spaceUri authorDid since (byCursor host) fuel all cursor).isSome = true ↔
      Walk.follow (advance host) fuel cursor = none := by
  induction fuel generalizing all cursor with
  | zero => simp [collectRepoOps, Walk.follow]
  | succ fuel ih =>
    rw [collectRepoOps, byCursor, lookup_requestParams, Walk.follow, advance, nextCursor]
    cases host cursor >>= parseRepoOpsPage with
    | error e => simp
    | ok page =>
      obtain ⟨ops, next⟩ := page
      cases next with
      | none => simp
      | some c =>
        simp only []
        split
        · simp
        · simpa using ih

theorem leads_advance_iff {next : Option String} :
    Walk.Leads (advance host) cursor next ↔ Gives host cursor next ∧ next ≠ cursor := by
  unfold Walk.Leads advance Gives
  cases nextCursor host cursor with
  | none => simp
  | some c => grind

theorem reaches_advance_iff {next : Option String} :
    Relation.ReflTransGen (Walk.Leads (advance host)) cursor next ↔
      Relation.ReflTransGen (Gives host) cursor next := by
  constructor
  · have fewer : Walk.Leads (advance host) ≤ Gives host :=
      fun _ _ step => (leads_advance_iff.mp step).1
    exact Relation.ReflTransGen.mono fewer _ _
  · intro reached
    induction reached with
    | refl => exact .refl
    | tail _ step ih =>
      rename_i mid next _
      by_cases same : next = mid
      · rwa [same]
      · exact ih.tail (leads_advance_iff.mpr ⟨step, same⟩)

end

/-- With answers that depend on the cursor alone and finitely many cursors, the collection
ends, with the operations or an error, exactly when the host leads in no circle of two or
more cursors. -/
theorem collectRepoOps_ends_iff (spaceUri authorDid : String) (since : Option String)
    (host : Option String → Except AppError Json) (finite : (cursors host).Finite) :
    (∃ fuel, (collectRepoOps spaceUri authorDid since (byCursor host) fuel [] none).isSome =
      true) ↔ NoLongCircle host := by
  have seen : {place | ∃ n, Walk.follow (advance host) n none = some place}.Finite := by
    refine ((finite.image some).insert none).subset ?_
    rintro place ⟨n, there⟩
    rcases Relation.ReflTransGen.cases_tail (Walk.reaches_of_follow there) with
      start | ⟨mid, -, step⟩
    · exact .inl start
    · obtain ⟨⟨c, given, rfl⟩, -⟩ := leads_advance_iff.mp step
      exact .inr ⟨c, ⟨mid, given⟩, rfl⟩
  simp only [isSome_collectRepoOps]
  rw [Walk.ends_iff seen]
  constructor
  · intro acyclic c d reached given differ back
    refine acyclic (some c) (reaches_advance_iff.mpr reached) ?_
    have step : Walk.Leads (advance host) (some c) (some d) :=
      leads_advance_iff.mpr ⟨⟨d, given, rfl⟩, by simpa using differ⟩
    exact Relation.TransGen.head' step (reaches_advance_iff.mpr back)
  · intro noCircle place reached back
    obtain ⟨next, step, rest⟩ := Relation.TransGen.head'_iff.mp back
    obtain ⟨⟨d, given, rfl⟩, differ⟩ := leads_advance_iff.mp step
    -- The start is not come back to, so the place is a cursor.
    cases place with
    | none =>
      rcases Relation.ReflTransGen.cases_tail rest with start | ⟨mid, -, last⟩
      · cases start
      · obtain ⟨⟨e, -, impossible⟩, -⟩ := leads_advance_iff.mp last
        cases impossible
    | some c =>
      exact noCircle c d (reaches_advance_iff.mp reached) given (by simpa using differ)
        (reaches_advance_iff.mp rest)

def emptyPage (cursor : String) : Json :=
  .object [("ops", .array []), ("cursor", .string cursor)]

def circling : Option String → Except AppError Json
  | some "a" => .ok (emptyPage "b")
  | _ => .ok (emptyPage "a")

def twoPages : Option String → Except AppError Json
  | none => .ok (emptyPage "a")
  | some _ => .ok (.object [("ops", .array [])])

theorem finite_cursors_twoPages : (cursors twoPages).Finite := by
  refine (Set.finite_singleton "a").subset ?_
  rintro c ⟨cursor, given⟩
  cases cursor with
  | none => exact (Option.some.inj given).symm
  | some d => cases given

/-- Two pages are collected. -/
theorem collectRepoOps_ends_iff_twoPages :
    ∃ fuel, (collectRepoOps "space" "did:plc:alice" none (byCursor twoPages) fuel [] none).isSome =
      true := by
  refine (collectRepoOps_ends_iff "space" "did:plc:alice" none twoPages
    finite_cursors_twoPages).mpr ?_
  intro c d _ given
  cases given

theorem nextCursor_circling (cursor : Option String) :
    nextCursor circling cursor = some (if cursor = some "a" then "b" else "a") := by
  by_cases first : cursor = some "a"
  · subst first
    rfl
  · have answer : circling cursor = .ok (emptyPage "a") := by
      unfold circling
      split
      · contradiction
      · rfl
    rw [nextCursor, answer, if_neg first]
    rfl

/-- A host with two cursors that lead to each other keeps the collection going for any
number of requests. -/
theorem circling_never_ends :
    (cursors circling).Finite ∧ ∀ fuel, collectRepoOps "space" "did:plc:alice" none
      (byCursor circling) fuel [] none = none := by
  constructor
  · refine (Set.toFinite ({"a", "b"} : Set String)).subset ?_
    rintro c ⟨cursor, given⟩
    rw [nextCursor_circling] at given
    grind
  · intro fuel
    have walks : ∀ n cursor, cursor = none ∨ cursor = some "a" ∨ cursor = some "b" →
        Walk.follow (advance circling) n cursor ≠ none := by
      intro n
      induction n with
      | zero => simp [Walk.follow]
      | succ n ih =>
        rintro cursor (rfl | rfl | rfl) <;>
          simp [Walk.follow, advance, nextCursor_circling, ih]
    rw [← Option.not_isSome_iff_eq_none, isSome_collectRepoOps]
    exact walks fuel none (.inl rfl)

end HappyView.Spaces.OpCollection
