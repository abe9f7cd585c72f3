import HappyView.Records.Intern

/-!
# The cache of interned names is sound

Every id that a session knows is of a row it sees: a committed one, or one it has inserted
itself. A commit makes all of them committed rows, and only then does the scope go to the cache.
-/

namespace HappyView.Records.Intern

open HappyView.Foundation

def Known (rows : List Row) (names : Names) (ids : Ids) : Prop :=
  ∀ name id, ids.lookup name = some id → ⟨names, name, id⟩ ∈ rows

structure Shared.Sound (shared : Shared) : Prop where
  dids : shared.dids.All fun did id => ⟨.dids, did, id⟩ ∈ shared.committed
  collections : Known shared.committed .collections shared.collections
  references : ∀ row ∈ shared.references, row ∈ shared.committed

/-- What a session knows, among the rows that it sees. -/
structure Session.Sound (committed : List Row) (s : Session) : Prop where
  scope : ∀ names, Known (committed ++ s.inserted) names (s.scope.of names)
  call : ∀ names ids left chunk rest later, s.call = .rounds names ids left chunk rest later →
    Known (committed ++ s.inserted) names ids
  written : ∀ row ∈ s.written, row ∈ committed ++ s.inserted
  settled : s.phase ≠ .opened → s.inserted = []

section Known

variable {rows rows' : List Row} {names : Names} {ids ids' : Ids}

theorem known_empty : Known rows names ∅ := by
  intro name id found
  simp at found

theorem known_emptyScope (names : Names) : Known rows names (InternScope.of {} names) := by
  cases names <;> exact known_empty

theorem Known.mono (known : Known rows names ids) (more : rows ⊆ rows') : Known rows' names ids :=
  fun name id found => more (known name id found)

theorem Known.insert {name : String} {id : Int} (known : Known rows names ids)
    (row : ⟨names, name, id⟩ ∈ rows) : Known rows names (ids.insert name id) := by
  intro other found held
  rcases lookup_insert_cases held with ⟨rfl, rfl⟩ | old
  · exact row
  · exact known other found old

theorem Known.union (known : Known rows names ids) (known' : Known rows names ids') :
    Known rows names (ids ∪ ids') := by
  intro name id found
  rcases AList.mem_lookup_union.mp found with first | ⟨-, second⟩
  · exact known name id first
  · exact known' name id second

theorem known_extend {scope : InternScope} (known : Known rows names ids)
    (before : ∀ names, Known rows names (scope.of names)) (names' : Names) :
    Known rows names' ((scope.extend names ids).of names') := by
  cases names <;> cases names'
  · exact known.union (before .dids)
  · exact before .collections
  · exact before .dids
  · exact known.union (before .collections)

theorem known_selectNames {visible : List Row} {chunk : List String} (known : Known rows names ids)
    (sees : visible ⊆ rows) : Known rows names (selectNames visible names chunk ids) := by
  unfold selectNames
  refine List.foldlRecOn (motive := Known rows names) _ _ known fun ids known row mem => ?_
  obtain ⟨seen, wanted⟩ := List.mem_filter.mp mem
  obtain ⟨rfl, -⟩ := of_decide_eq_true wanted
  exact known.insert (sees seen)

theorem known_lookUp {γ : Type} {get : γ → String → Option Int × γ} {holds : γ → Prop}
    (get_holds : ∀ cache name, holds cache → holds (get cache name).2)
    (get_known : ∀ cache name id, holds cache → (get cache name).1 = some id →
      ⟨names, name, id⟩ ∈ rows)
    (wanted : List String) {found : Lookup γ} (cache : holds found.cache)
    (known : Known rows names found.ids) :
    holds (wanted.foldl (lookUp get) found).cache ∧
      Known rows names (wanted.foldl (lookUp get) found).ids := by
  induction wanted generalizing found with
  | nil => exact ⟨cache, known⟩
  | cons name wanted ih =>
    have kept := get_holds _ name cache
    rw [List.foldl_cons, lookUp]
    split
    · exact ih cache known
    dsimp only
    split
    · rename_i id cached
      exact ih kept (known.insert (get_known _ _ _ cache cached))
    · exact ih kept known

end Known

section Step

variable {shared shared' : Shared} {s s' : Session} {committed committed' : List Row}

theorem Session.Sound.mono (sound : s.Sound committed) (more : committed ⊆ committed') :
    s.Sound committed' := by
  have visible : committed ++ s.inserted ⊆ committed' ++ s.inserted :=
    List.append_subset.mpr
      ⟨List.subset_append_of_subset_left _ more, List.subset_append_right _ _⟩
  exact ⟨fun names => (sound.scope names).mono visible,
    fun names ids left chunk rest later h =>
      (sound.call names ids left chunk rest later h).mono visible,
    fun row mem => visible (sound.written row mem), sound.settled⟩

theorem session_sound_of_idle {phase : Phase} {scope : InternScope}
    (known : ∀ names, Known committed names (scope.of names)) :
    Session.Sound committed { phase, scope } where
  scope names := by simpa using known names
  call := nofun
  written := nofun
  settled _ := rfl

theorem nextRound_sound {names : Names} {ids : Ids} (sound : s.Sound committed)
    (known : Known (committed ++ s.inserted) names ids)
    (later : List String) (chunks : List (List String)) :
    (nextRound s names ids later chunks).Sound committed := by
  have extended := known_extend known sound.scope
  unfold nextRound
  split
  · refine ⟨sound.scope, ?_, sound.written, sound.settled⟩
    rintro names' ids' left chunk rest later' ⟨⟩
    exact known
  · split
    · refine ⟨extended, ?_, sound.written, sound.settled⟩
      rintro names' ids' left chunk rest later' ⟨⟩
      exact known_empty
    · exact ⟨extended, nofun, sound.written, sound.settled⟩
    · exact ⟨extended, nofun, sound.written, sound.settled⟩

theorem insertName_subset {sessions : List Session} {inserted inserted' : List Row} {names : Names}
    {name : String} {id : Int}
    (h : insertName sessions committed inserted names name id = some inserted') :
    inserted ⊆ inserted' := by
  unfold insertName at h
  dsimp only at h
  split at h
  · cases h
    exact List.Subset.refl _
  split at h
  · cases h
  split at h
  · cases h
  · cases h
    exact List.subset_append_left _ _

theorem Session.Sound.known_of_settled (sound : s.Sound committed) (settled : s.phase ≠ .opened)
    (names : Names) : Known committed names (s.scope.of names) := by
  have scope := sound.scope names
  rwa [sound.settled settled, List.append_nil] at scope

theorem Session.Sound.written_of_settled (sound : s.Sound committed) (settled : s.phase ≠ .opened) :
    ∀ row ∈ s.written, row ∈ committed := by
  have written := sound.written
  rwa [sound.settled settled, List.append_nil] at written

theorem lookUpDids_sound (here : shared.Sound) (sound : s.Sound shared.committed)
    (dids collections : List String) :
    let found := dids.foldl (lookUp Lru.get) ⟨shared.dids, s.scope.dids, []⟩
    Shared.Sound { shared with dids := found.cache } ∧
      Session.Sound shared.committed { s with
        scope := { s.scope with dids := found.ids }
        call := .lookUpCollections found.want collections } := by
  intro found
  have looked : found.cache.All (fun did id => ⟨.dids, did, id⟩ ∈ shared.committed) ∧
      Known (shared.committed ++ s.inserted) .dids found.ids :=
    known_lookUp (fun _ _ all => all.get)
      (fun cache name id all hit => List.mem_append_left _ (all name id (by simpa using hit)))
      dids here.dids (sound.scope .dids)
  obtain ⟨cache, known⟩ := looked
  refine ⟨⟨cache, here.collections, here.references⟩, ?_, nofun, sound.written, sound.settled⟩
  rintro (_ | _)
  · exact known
  · exact sound.scope .collections

theorem lookUpCollections_sound (here : shared.Sound) (sound : s.Sound shared.committed)
    (collections : List String) :
    let found := collections.foldl (lookUp fun cache nsid => (cache.lookup nsid, cache))
      ⟨shared.collections, s.scope.collections, []⟩
    Session.Sound shared.committed { s with
      scope := { s.scope with collections := found.ids } } := by
  intro found
  have looked : Known shared.committed .collections found.cache ∧
      Known (shared.committed ++ s.inserted) .collections found.ids :=
    known_lookUp (fun _ _ known => known)
      (fun cache name id known hit => List.mem_append_left _ (known name id hit))
      collections here.collections (sound.scope .collections)
  refine ⟨?_, sound.call, sound.written, sound.settled⟩
  rintro (_ | _)
  · exact sound.scope .dids
  · exact looked.2

theorem Session.Sound.settle (sound : s.Sound committed) (settled : s.phase ≠ .opened)
    (phase : Phase) : Session.Sound committed { s with phase } :=
  ⟨sound.scope, sound.call, sound.written, fun _ => sound.settled settled⟩

theorem Session.Sound.write {names : Names} {name : String} {id : Int} (sound : s.Sound committed)
    (known : (s.scope.of names).lookup name = some id) :
    Session.Sound committed { s with written := s.written ++ [⟨names, name, id⟩] } := by
  refine ⟨sound.scope, sound.call, fun row mem => ?_, sound.settled⟩
  rcases List.mem_append.mp mem with old | new
  · exact sound.written row old
  · rw [List.mem_singleton.mp new]
    exact sound.scope names name id known

theorem commit_sound (here : shared.Sound) (sound : s.Sound shared.committed) :
    Shared.Sound { shared with
      committed := shared.committed ++ s.inserted
      references := shared.references ++ s.written } where
  dids := here.dids.mono fun _ _ mem => List.mem_append_left _ mem
  collections := here.collections.mono (List.subset_append_left _ _)
  references row mem := by
    rcases List.mem_append.mp mem with old | new
    · exact List.mem_append_left _ (here.references row old)
    · exact sound.written row new

theorem committed_sound (sound : s.Sound committed) (answered : Bool) :
    Session.Sound (committed ++ s.inserted)
      (if answered then { phase := .committed, scope := s.scope } else { phase := .done }) := by
  cases answered with
  | true => exact session_sound_of_idle sound.scope
  | false => exact session_sound_of_idle known_emptyScope

theorem all_remember {holds : String → Int → Prop} {cache : Lru String Int}
    {entries : List (String × Int)} (all : cache.All holds)
    (new : ∀ entry ∈ entries, holds entry.1 entry.2) :
    (entries.foldl (fun cache did => cache.put did.1 did.2) cache).All holds :=
  List.foldlRecOn (motive := Lru.All holds) _ _ all fun _ all entry mem => all.put (new entry mem)

theorem step_sound {sessions : List Session} {op : Op} (here : shared.Sound)
    (sound : s.Sound shared.committed) (step : s.step sessions shared op = some (shared', s')) :
    shared'.Sound ∧ s'.Sound shared'.committed ∧ shared.committed ⊆ shared'.committed := by
  have same := List.Subset.refl shared.committed
  unfold Session.step at step
  split at step
  · -- newScope
    cases step
    exact ⟨here, ⟨known_emptyScope, sound.call, sound.written, sound.settled⟩, same⟩
  · -- intern
    cases step
    exact ⟨here, ⟨sound.scope, nofun, sound.written, sound.settled⟩, same⟩
  · -- lookUpDids
    cases step
    obtain ⟨cache, found⟩ := lookUpDids_sound here sound _ _
    exact ⟨cache, found, same⟩
  · -- lookUpCollections
    cases step
    exact ⟨here, nextRound_sound (lookUpCollections_sound here sound _) known_empty _ _, same⟩
  · -- insert
    obtain ⟨inserted, insert, step⟩ := Option.map_eq_some_iff.mp step
    cases step
    have more : shared.committed ++ s.inserted ⊆ shared.committed ++ inserted :=
      List.append_subset.mpr ⟨List.subset_append_left _ _,
        List.subset_append_of_subset_right _ (insertName_subset insert)⟩
    refine ⟨here, ⟨fun names => (sound.scope names).mono more, ?_,
      fun row mem => more (sound.written row mem), ?_⟩, same⟩
    · rintro names ids left chunk rest later ⟨⟩
      exact (sound.call _ _ _ _ _ _ ‹_›).mono more
    · exact fun settled => absurd ‹_› settled
  · -- select
    cases step
    have known := sound.call _ _ _ _ _ _ ‹_›
    exact ⟨here, nextRound_sound sound (known_selectNames known (List.Subset.refl _)) _ _, same⟩
  · -- write, in the first transaction
    obtain ⟨id, known, step⟩ := Option.map_eq_some_iff.mp step
    cases step
    exact ⟨here, sound.write known, same⟩
  · -- write, in the transaction of the refs
    obtain ⟨id, known, step⟩ := Option.map_eq_some_iff.mp step
    cases step
    exact ⟨here, sound.write known, same⟩
  · -- commit
    cases step
    exact ⟨commit_sound here sound, committed_sound sound _, List.subset_append_left _ _⟩
  · -- rollback
    cases step
    exact ⟨here, session_sound_of_idle known_emptyScope, same⟩
  · -- beginRefs
    rename_i committed _
    cases step
    exact ⟨here, sound.settle (by rw [committed]; nofun) .refs, same⟩
  · -- endRefs
    rename_i refs _
    have settled : s.phase ≠ .opened := by rw [refs]; nofun
    cases step
    refine ⟨⟨here.dids, here.collections, fun row mem => ?_⟩,
      ⟨sound.scope, sound.call, nofun, fun _ => sound.settled settled⟩, same⟩
    split at mem
    · rcases List.mem_append.mp mem with old | new
      · exact here.references row old
      · exact sound.written_of_settled settled row new
    · exact here.references row mem
  · -- rememberDids
    rename_i committed _
    have settled : s.phase ≠ .opened := by rw [committed]; nofun
    have known := sound.known_of_settled settled .dids
    split at step
    · rename_i entries
      cases step
      refine ⟨⟨?_, here.collections, here.references⟩, sound.settle settled .rememberedDids, same⟩
      refine all_remember here.dids fun entry mem => ?_
      obtain ⟨held, inScope, rfl⟩ := List.mem_map.mp (entries.mem_iff.mp mem)
      exact known _ _ (AList.mem_lookup_iff.mpr inScope)
    · cases step
  · -- rememberCollections
    rename_i remembered _
    cases step
    have known := sound.known_of_settled (by rw [remembered]; nofun) .collections
    exact ⟨⟨here.dids, known.union here.collections, here.references⟩,
      session_sound_of_idle known_emptyScope, same⟩
  · cases step

end Step

/-! ## Runs -/

structure World.Sound (w : World) : Prop where
  shared : w.shared.Sound
  sessions : ∀ s ∈ w.sessions, s.Sound w.shared.committed

theorem World.Sound.step {w w' : World} {action : Action} (sound : w.Sound)
    (step : w.step action = some w') : w'.Sound := by
  cases action with
  | start =>
    cases step
    refine ⟨sound.shared, fun s mem => ?_⟩
    rcases List.mem_append.mp mem with old | new
    · exact sound.sessions s old
    · rw [List.mem_singleton.mp new]
      exact session_sound_of_idle known_emptyScope
  | act i op =>
    obtain ⟨s, held, step⟩ := Option.bind_eq_some_iff.mp step
    obtain ⟨⟨shared, s'⟩, acted, step⟩ := Option.bind_eq_some_iff.mp step
    cases step
    obtain ⟨here, moved, more⟩ :=
      step_sound sound.shared (sound.sessions s (List.mem_of_getElem? held)) acted
    refine ⟨here, fun other mem => ?_⟩
    rcases List.mem_or_eq_of_mem_set mem with old | rfl
    · exact (sound.sessions other old).mono more
    · exact moved

/-- After any interleaving of transactions that intern names and are then committed or rolled
back, the cache holds committed rows. So every reference that an open transaction has written is
to a committed row or to one it has inserted itself, and every committed reference is to a
committed row. -/
theorem cache_sound {capacity : Nat} {rows : List Row} {actions : List Action} {w : World}
    (run : (machine capacity rows).run actions = some w) :
    (∀ did id, w.shared.dids.peek did = some id → ⟨.dids, did, id⟩ ∈ w.shared.committed) ∧
    (∀ nsid id, w.shared.collections.lookup nsid = some id →
      ⟨.collections, nsid, id⟩ ∈ w.shared.committed) ∧
    (∀ s ∈ w.sessions, ∀ row ∈ s.written, row ∈ w.shared.committed ∨ row ∈ s.inserted) ∧
    ∀ row ∈ w.shared.references, row ∈ w.shared.committed := by
  have start : World.Sound (machine capacity rows).start :=
    ⟨⟨Lru.all_empty, known_empty, nofun⟩, nofun⟩
  have sound : w.Sound :=
    Machine.induct (P := fun _ => World.Sound) start (fun _ _ _ _ sound step => sound.step step) run
  exact ⟨sound.shared.dids, sound.shared.collections,
    fun s mem row wrote => List.mem_append.mp ((sound.sessions s mem).written row wrote),
    sound.shared.references⟩

/-! The first transaction is rolled back, and its id goes to a name of the second. -/

def reuseRun : List Action :=
  [.start, .start,
    .act 0 (.intern ["did:plc:ada"] []), .act 0 .lookUpDids, .act 0 .lookUpCollections,
    .act 0 (.insert 7), .act 0 .select, .act 0 (.write .dids "did:plc:ada"), .act 0 .rollback,
    .act 1 (.intern ["did:plc:bob"] ["example.note"]), .act 1 .lookUpDids,
    .act 1 .lookUpCollections, .act 1 (.insert 7), .act 1 .select, .act 1 (.insert 1),
    .act 1 .select, .act 1 (.write .dids "did:plc:bob"), .act 1 (.commit true),
    .act 1 (.rememberDids [("did:plc:bob", 7)]), .act 1 .rememberCollections,
    .start, .act 2 (.intern ["did:plc:bob"] ["example.note"]), .act 2 .lookUpDids,
    .act 2 .lookUpCollections, .act 2 (.write .collections "example.note")]

theorem cache_sound_reuse :
    ∃ w, (machine 2 []).run reuseRun = some w ∧ w.shared.dids.peek "did:plc:bob" = some 7 ∧
      ⟨.dids, "did:plc:bob", 7⟩ ∈ w.shared.committed ∧
      ⟨.dids, "did:plc:ada", 7⟩ ∉ w.shared.committed := by
  obtain ⟨w, run, cached⟩ := (Option.any_eq_true _ _).mp (by decide +kernel :
    ((machine 2 []).run reuseRun).any (fun w => w.shared.dids.peek "did:plc:bob" = some 7 ∧
      ⟨.dids, "did:plc:ada", 7⟩ ∉ w.shared.committed) = true)
  obtain ⟨bob, ada⟩ := of_decide_eq_true cached
  exact ⟨w, run, bob, (cache_sound run).1 _ _ bob, ada⟩

end HappyView.Records.Intern
