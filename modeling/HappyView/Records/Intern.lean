import HappyView.Foundation.Lru
import HappyView.Foundation.Machine
import Mathlib.Data.List.Destutter
import Mathlib.Data.List.Sort

/-!
# Interned names

DIDs and collections are stored once each and referred to by id. A transaction looks its names up
in a cache that the whole process shares, inserts the others, and puts every id it used into a
scope; the scope goes to the cache only after the commit, since the ids of a transaction that is
rolled back are given out again.

Any number of transactions run at once. An insert of a name that another open transaction has
inserted waits for it, a new row has an id that no row of its table has, and a transaction sees
the committed rows and its own.
-/

namespace HappyView.Records.Intern

open HappyView.Foundation

inductive Names where
  | dids
  | collections
  deriving DecidableEq

structure Row where
  names : Names
  name : String
  id : Int
  deriving DecidableEq

abbrev Ids := AList fun _ : String => Int

/-- The ids one transaction used or created. -/
structure InternScope where
  dids : Ids := ∅
  collections : Ids := ∅

def InternScope.of (scope : InternScope) : Names → Ids
  | .dids => scope.dids
  | .collections => scope.collections

def InternScope.extend (scope : InternScope) (names : Names) (ids : Ids) : InternScope :=
  match names with
  | .dids => { scope with dids := ids ∪ scope.dids }
  | .collections => { scope with collections := ids ∪ scope.collections }

def internChunk : Nat := 500

/-! ## The cache -/

structure Lookup (γ : Type) where
  cache : γ
  ids : Ids
  want : List String

def lookUp {γ : Type} (get : γ → String → Option Int × γ) (found : Lookup γ) (name : String) :
    Lookup γ :=
  if name ∈ found.ids then found
  else
    let (id, cache) := get found.cache name
    match id with
    | some id => { found with cache, ids := found.ids.insert name id }
    | none => { found with cache, want := found.want ++ [name] }

/-- Sorted, so that transactions insert overlapping names in one order. -/
def sorted (want : List String) : List String :=
  (want.insertionSort (· ≤ ·)).destutter (· ≠ ·)

/-! ## Sessions -/

inductive Call where
  | idle
  | lookUpDids (dids collections : List String)
  | lookUpCollections (wantDids collections : List String)
  /-- The names of `chunk` that are left to insert, and then the chunk to select; `later` are the
  collections to insert after the DIDs. -/
  | rounds (names : Names) (ids : Ids) (left chunk : List String) (rest : List (List String))
      (later : List String)

inductive Phase where
  | opened
  | committed
  /-- The transaction of a local write's refs, which uses the ids of the one before. -/
  | refs
  | rememberedDids
  | done
  deriving DecidableEq

/-- One write to the record store: `write_network`, `write_local`, `upsert_batch` in a caller's
transaction, or a batch of the upgrade. -/
structure Session where
  phase : Phase := .opened
  call : Call := .idle
  inserted : List Row := []
  written : List Row := []
  scope : InternScope := {}

def nextRound (s : Session) (names : Names) (ids : Ids) (later : List String) :
    List (List String) → Session
  | chunk :: rest => { s with call := .rounds names ids chunk chunk rest later }
  | [] =>
    let s := { s with scope := s.scope.extend names ids }
    match names, later.toChunks internChunk with
    | .dids, chunk :: rest => { s with call := .rounds .collections ∅ chunk chunk rest [] }
    | .dids, [] | .collections, _ => { s with call := .idle }

structure Shared where
  committed : List Row
  references : List Row := []
  dids : Lru String Int
  collections : Ids := ∅

structure World where
  shared : Shared
  sessions : List Session := []

inductive Op where
  | newScope
  | intern (dids collections : List String)
  | lookUpDids
  | lookUpCollections
  /-- With the id that the database gives if the row is new. -/
  | insert (id : Int)
  | select
  | write (names : Names) (name : String)
  /-- The database commits; the answer may get lost. -/
  | commit (answered : Bool)
  | rollback
  | beginRefs
  | endRefs (committed : Bool)
  /-- In the order in which the scope gives its entries. -/
  | rememberDids (order : List (String × Int))
  | rememberCollections

/-- `INSERT … ON CONFLICT DO NOTHING` of one name. -/
def insertName (sessions : List Session) (committed inserted : List Row) (names : Names)
    (name : String) (id : Int) : Option (List Row) :=
  let same (row : Row) : Bool := row.names = names ∧ row.name = name
  let taken (row : Row) : Bool := row.names = names ∧ row.id = id
  if (committed ++ inserted).any same then some inserted
  else if sessions.any (·.inserted.any same) then none
  else if committed.any taken ∨ sessions.any (·.inserted.any taken) then none
  else some (inserted ++ [⟨names, name, id⟩])

/-- `SELECT id, name … WHERE name IN chunk`. -/
def selectNames (visible : List Row) (names : Names) (chunk : List String) (ids : Ids) : Ids :=
  (visible.filter fun row => row.names = names ∧ row.name ∈ chunk).foldl
    (fun ids row => ids.insert row.name row.id) ids

def Session.step (sessions : List Session) (shared : Shared) (s : Session) (op : Op) :
    Option (Shared × Session) :=
  match op, s.phase, s.call with
  | .newScope, .opened, .idle => some (shared, { s with scope := {} })
  | .intern dids collections, .opened, .idle =>
    some (shared, { s with call := .lookUpDids dids collections })
  | .lookUpDids, .opened, .lookUpDids dids collections =>
    let found := dids.foldl (lookUp Lru.get) ⟨shared.dids, s.scope.dids, []⟩
    some ({ shared with dids := found.cache },
      { s with
        scope := { s.scope with dids := found.ids }
        call := .lookUpCollections found.want collections })
  | .lookUpCollections, .opened, .lookUpCollections wantDids collections =>
    let found := collections.foldl (lookUp fun cache nsid => (cache.lookup nsid, cache))
      ⟨shared.collections, s.scope.collections, []⟩
    let s := { s with scope := { s.scope with collections := found.ids } }
    some (shared,
      nextRound s .dids ∅ (sorted found.want) ((sorted wantDids).toChunks internChunk))
  | .insert id, .opened, .rounds names ids (name :: left) chunk rest later =>
    (insertName sessions shared.committed s.inserted names name id).map fun inserted =>
      (shared, { s with inserted, call := .rounds names ids left chunk rest later })
  | .select, .opened, .rounds names ids [] chunk rest later =>
    let ids := selectNames (shared.committed ++ s.inserted) names chunk ids
    some (shared, nextRound s names ids later rest)
  | .write names name, .opened, .idle | .write names name, .refs, .idle =>
    ((s.scope.of names).lookup name).map fun id =>
      (shared, { s with written := s.written ++ [⟨names, name, id⟩] })
  | .commit answered, .opened, .idle =>
    some ({ shared with
        committed := shared.committed ++ s.inserted
        references := shared.references ++ s.written },
      if answered then { phase := .committed, scope := s.scope } else { phase := .done })
  | .rollback, .opened, _ => some (shared, { phase := .done })
  | .beginRefs, .committed, .idle => some (shared, { s with phase := .refs })
  | .endRefs committed, .refs, .idle =>
    some ({ shared with
        references := if committed then shared.references ++ s.written else shared.references },
      { s with phase := .committed, written := [] })
  | .rememberDids order, .committed, .idle =>
    if order.Perm (s.scope.dids.entries.map fun entry => (entry.1, entry.2)) then
      some ({ shared with
          dids := order.foldl (fun cache did => cache.put did.1 did.2) shared.dids },
        { s with phase := .rememberedDids })
    else none
  | .rememberCollections, .rememberedDids, .idle =>
    some ({ shared with collections := s.scope.collections ∪ shared.collections },
      { phase := .done })
  | _, _, _ => none

inductive Action where
  | start
  | act (session : Nat) (op : Op)

def World.step (w : World) : Action → Option World
  | .start => some { w with sessions := w.sessions ++ [{}] }
  | .act i op => do
    let s ← w.sessions[i]?
    let (shared, s) ← s.step w.sessions w.shared op
    some ⟨shared, w.sessions.set i s⟩

def machine (capacity : Nat) (rows : List Row) : Machine World Action where
  start := ⟨{ committed := rows, dids := .empty (max 1 capacity) }, []⟩
  step := World.step

end HappyView.Records.Intern
