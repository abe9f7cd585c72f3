import HappyView.Spaces.Writers

/-!
# One sequence of space revisions

The space revisions of a space are to form one chain: each greater than the one before, each
update naming the one before it, and a cursor into the chain giving the repos updated since. The
lock gives that among transactions. A plain connection loses the lock before it reads the largest
revision, so what it read may be out of date when it writes.
-/

namespace HappyView.Spaces.Writers

open HappyView.Foundation

/-! ## Space revisions -/

def IsTid (rev : String) : Prop := ∃ n < 2 ^ 64, rev = Tid.tidFromNumber n

def largestTid : String := Tid.tidFromNumber (2 ^ 64 - 1)

theorem isTid_tidFromParts (us clockId : Nat) : IsTid (Tid.tidFromParts us clockId) :=
  ⟨us % 2 ^ 54 * 1024 + clockId % 1024, by omega, Tid.tidFromParts_eq us clockId⟩

theorem isTid_nextSpaceRev {now : String} (prev : Option String) (h : IsTid now) :
    IsTid (nextSpaceRev prev now) := by
  unfold nextSpaceRev
  split
  · split
    · exact ⟨_, Nat.mod_lt _ (by omega), rfl⟩
    · exact h
  · exact h

theorem lt_nextSpaceRev {prev now : String} (hp : IsTid prev) (room : prev ≠ largestTid)
    (hn : IsTid now) : prev < nextSpaceRev (some prev) now := by
  obtain ⟨m, hm, rfl⟩ := hp
  obtain ⟨n, hn, rfl⟩ := hn
  have small : m ≠ 2 ^ 64 - 1 := by
    rintro rfl
    exact room rfl
  simp only [nextSpaceRev, Option.bind_some, Tid.tidToNumber_tidFromNumber hm,
    Tid.tidToNumber_tidFromNumber hn, Option.any_some, decide_eq_true_eq]
  split
  · exact (Tid.tidFromNumber_lt hm (Nat.mod_lt _ (by omega))).mpr (by omega)
  · exact (Tid.tidFromNumber_lt hm hn).mpr (by omega)

/-! ## The chain -/

abbrev Linked : Option String → List Advance → Prop :=
  Chain.Linked (·.spaceRev) (·.prevSpaceRev)

abbrev lastRev : List Advance → Option String := Chain.lastKey (·.spaceRev) none

/-- The advances of `log` that no later one of the same repo replaced. -/
abbrev latest : List Advance → List Advance := Chain.latest (·.repoDid)

structure State.Sequential (s : State) : Prop where
  ascending : s.log.Pairwise fun a b => a.spaceRev < b.spaceRev
  chained : ∀ front a back, s.log = front ++ a :: back → a.prevSpaceRev = lastRev front
  page : ∀ cursor limit, list s.rows cursor limit =
    ((latest (Paging.after (·.spaceRev) cursor s.log)).map (·.toWriter)).take limit
  /-- A page that has room for all lists the repos that advanced after the cursor. -/
  listed : ∀ front a back, s.log = front ++ a :: back → ∀ limit, s.rows.length ≤ limit →
    ∀ repo, repo ∈ (list s.rows (some a.spaceRev) limit).map (·.repoDid) ↔
      repo ∈ back.map (·.repoDid)

/-! ## What a connection is in the middle of -/

def Phase.next : Phase → List Advance
  | .stamped a => [a]
  | _ => []

/-- The connection has read the largest space revision and what it wrote on from there is
not visible yet. -/
def Session.sequencing (c : Session) : Bool :=
  c.pending ≠ [] || match c.phase with
    | .sequenced .. | .stamped _ => true
    | _ => false

def Session.holding (c : Session) : Bool :=
  c.sequencing || match c.phase with
    | .locked _ | .current _ => true
    | _ => false

def State.others (s : State) (i : Nat) : List Session :=
  (s.sessions.entries.filter (·.1 ≠ i)).map (·.2)

theorem State.mem_others {s : State} {i j : Nat} {c : Session} (held : s.sessions.lookup j = some c)
    (ne : j ≠ i) : c ∈ s.others i := by
  refine List.mem_map.mpr ⟨⟨j, c⟩, List.mem_filter.mpr ⟨?_, by simpa using ne⟩, rfl⟩
  exact AList.mem_lookup_iff.mp held

/-- What the lock does not give: no plain write becomes visible while another connection is
between reading the largest space revision and writing, and no transaction commits its rows
while a plain connection is. Apart from that, TIDs must not run out. -/
def Undisturbed (s : State) : Action → Prop
  | .work i .upsert => ∀ c ∈ s.sessions.lookup i, c.transactional = false →
      ∀ d ∈ s.others i, d.sequencing = false
  | .work i .commit => ∀ c ∈ s.sessions.lookup i, c.pending ≠ [] →
      ∀ d ∈ s.others i, d.transactional = false → d.sequencing = false
  | .work i (.stamp ..) => ∀ c ∈ s.sessions.lookup i, maxSpaceRev (c.view s.rows) ≠ some largestTid
  | _ => True

instance (s : State) : (a : Action) → Decidable (Undisturbed s a)
  | .work _ .upsert | .work _ .commit | .work _ (.stamp ..) =>
    inferInstanceAs (Decidable (∀ _ ∈ _, _))
  | .work _ (.record ..) | .work _ .lock | .work _ .readHeld | .work _ .readMax
  | .connect .. | .close _ => inferInstanceAs (Decidable True)

/-! ## The invariant -/

/-- What connection `i` relies on. What it has written, and what it is about to write,
continues the chain. -/
structure Session.Ok (lock : Option Nat) (log : List Advance) (i : Nat) (c : Session) : Prop where
  holds : c.transactional = true → c.holding = true → lock = some i
  plain : c.transactional = false → c.pending = []
  linked : Linked (lastRev log) (c.pending ++ c.phase.next)
  tids : ∀ a ∈ c.pending ++ c.phase.next, IsTid a.spaceRev
  prev : ∀ report prev, c.phase = .sequenced report prev → prev = lastRev (log ++ c.pending)

structure State.Inv (s : State) : Prop where
  rows : s.rows = (latest s.log).map (·.toWriter)
  linked : Linked none s.log
  tids : ∀ a ∈ s.log, IsTid a.spaceRev
  sessions : ∀ i c, s.sessions.lookup i = some c → c.Ok s.lock s.log i

theorem applied_latest (log new : List Advance) :
    applied ((latest log).map (·.toWriter)) new = (latest (log ++ new)).map (·.toWriter) :=
  (Chain.map_latest_append fun _ => rfl).symm

namespace Session

variable {lock lock' : Option Nat} {log new : List Advance} {i : Nat} {c : Session}

theorem Ok.relock (ok : c.Ok lock log i) (keep : lock = some i → lock' = some i) :
    c.Ok lock' log i :=
  { ok with holds := fun transactional holding => keep (ok.holds transactional holding) }

theorem Ok.of_not_sequencing (ok : c.Ok lock log i) (free : c.sequencing = false) :
    c.Ok lock new i := by
  obtain ⟨transactional, phase, pending⟩ := c
  obtain ⟨rfl, between⟩ : pending = [] ∧ _ := by simpa [sequencing] using free
  refine { ok with linked := ?_, prev := ?_ }
  · cases phase <;> simp_all [Phase.next, Chain.Linked]
  · rintro report prev rfl
    simp at between

theorem Ok.move (ok : c.Ok lock log i) {phase : Phase} (next : phase.next = [])
    (holds : c.transactional = true → Session.holding { c with phase } = true → lock' = some i)
    (prev : ∀ report prev, phase = .sequenced report prev → prev = lastRev (log ++ c.pending)) :
    Session.Ok lock' log i { c with phase } where
  holds := holds
  plain := ok.plain
  linked := by
    rw [next, List.append_nil]
    exact (Chain.linked_append.mp ok.linked).1
  tids := by
    rw [next, List.append_nil]
    exact fun a mem => ok.tids a (List.mem_append_left _ mem)
  prev := prev

end Session

namespace State

variable {s t : State} {i : Nat} {c : Session}

theorem Inv.put {lock : Option Nat} (inv : s.Inv) (ok : c.Ok lock s.log i)
    (keep : ∀ j ≠ i, s.lock = some j → lock = some j) : Inv { s.put i c with lock } := by
  refine { inv with sessions := ?_ }
  intro j d held
  by_cases same : j = i
  · subst same
    obtain rfl : c = d := by simpa [State.put] using held
    exact ok
  · refine (inv.sessions j d ?_).relock (keep j same)
    simpa [State.put, AList.lookup_insert_ne same] using held

theorem Inv.disconnect (inv : s.Inv) (i : Nat) : (s.disconnect i).Inv := by
  refine { inv with sessions := ?_ }
  intro j d held
  have ne : j ≠ i := by
    rintro rfl
    simp [State.disconnect] at held
  refine (inv.sessions j d ?_).relock ?_
  · simpa [State.disconnect, AList.lookup_erase_ne ne] using held
  · intro holder
    simp [State.disconnect, holder, ne]

theorem Inv.publish {new : List Advance} (inv : s.Inv) (linked : Linked (lastRev s.log) new)
    (tids : ∀ a ∈ new, IsTid a.spaceRev)
    (free : new ≠ [] → ∀ j d, s.sessions.lookup j = some d → d.sequencing = false) :
    (s.publish new).Inv where
  rows := by rw [State.publish, inv.rows, applied_latest]
  linked := Chain.linked_append.mpr ⟨inv.linked, linked⟩
  tids := by
    intro a mem
    rcases List.mem_append.mp mem with old | added
    · exact inv.tids a old
    · exact tids a added
  sessions := by
    intro j d held
    rcases eq_or_ne new [] with rfl | some
    · simpa [State.publish] using inv.sessions j d held
    · exact (inv.sessions j d held).of_not_sequencing (free some j d held)

theorem Inv.maxSpaceRev_view (inv : s.Inv) (held : s.sessions.lookup i = some c) :
    maxSpaceRev (c.view s.rows) = lastRev (s.log ++ c.pending) := by
  have chain : Linked none (s.log ++ c.pending) :=
    Chain.linked_append.mpr ⟨inv.linked, (Chain.linked_append.mp (inv.sessions i c held).linked).1⟩
  rw [Session.view, inv.rows, applied_latest, maxSpaceRev, List.map_map]
  exact Chain.max_latest chain.ascending

theorem Inv.isTid_last (inv : s.Inv) (held : s.sessions.lookup i = some c) {rev : String}
    (last : lastRev (s.log ++ c.pending) = some rev) : IsTid rev := by
  obtain ⟨a, mem, rfl⟩ := Chain.exists_of_lastKey last
  rcases List.mem_append.mp mem with old | written
  · exact inv.tids a old
  · exact (inv.sessions i c held).tids a (List.mem_append_left _ written)

variable {backend : DatabaseBackend} {report : Report} {prev : Option String} {a : Advance}

theorem Inv.put_self (inv : s.Inv) (ok : c.Ok s.lock s.log i) : (s.put i c).Inv :=
  inv.put ok fun _ _ holder => holder

section Work

variable (inv : s.Inv) (held : s.sessions.lookup i = some c)

include inv held

theorem inv_record {now : Nat}
    (h : s.work backend i c (.record report now) = some t) : t.Inv := by
  have ok := inv.sessions i c held
  simp only [State.work] at h
  split at h
  · rename_i idle _
    cases h
    refine inv.put_self (ok.move rfl ?_ (by simp))
    intro transactional holding
    refine ok.holds transactional ?_
    simpa [Session.holding, Session.sequencing, idle] using holding
  · cases h
    exact inv
  · cases h

theorem inv_lock
    (h : s.work backend i c .lock = some t) : t.Inv := by
  have ok := inv.sessions i c held
  simp only [State.work] at h
  split at h
  · obtain ⟨free, ⟨⟩⟩ := Option.ite_none_right_eq_some.mp h
    refine inv.put (ok.move rfl (by simp_all) (by simp)) ?_
    intro j ne holder
    -- A transaction gets the lock only when no other holds it.
    cases transactional : c.transactional with
    | false => simpa using holder
    | true => simp [mayLock, transactional, holder, ne] at free
  · cases h

theorem inv_readHeld
    (h : s.work backend i c .readHeld = some t) : t.Inv := by
  have ok := inv.sessions i c held
  simp only [State.work] at h
  split at h
  · rename_i report locked
    cases h
    refine inv.put_self (ok.move ?_ ?_ ?_)
    · split <;> rfl
    · intro transactional _
      exact ok.holds transactional (by simp [Session.holding, locked])
    · split <;> simp
  · cases h

theorem inv_readMax
    (h : s.work backend i c .readMax = some t) : t.Inv := by
  have ok := inv.sessions i c held
  simp only [State.work] at h
  split at h
  · rename_i report current
    cases h
    refine inv.put_self (ok.move rfl ?_ ?_)
    · intro transactional _
      exact ok.holds transactional (by simp [Session.holding, current])
    · intro _ _ read
      cases read
      exact inv.maxSpaceRev_view held
  · cases h

theorem inv_stamp {us clockId : Nat}
    (room : maxSpaceRev (c.view s.rows) ≠ some largestTid)
    (h : s.work backend i c (.stamp us clockId) = some t) : t.Inv := by
  have ok := inv.sessions i c held
  simp only [State.work] at h
  split at h
  · rename_i report prev sequenced
    cases h
    have now := isTid_tidFromParts us clockId
    have last : prev = lastRev (s.log ++ c.pending) := ok.prev report prev sequenced
    obtain ⟨chain, -⟩ := Chain.linked_append.mp ok.linked
    refine inv.put_self
      { holds := ?_, plain := ok.plain, linked := ?_, tids := ?_, prev := by simp }
    · intro transactional _
      exact ok.holds transactional (by simp [Session.holding, Session.sequencing, sequenced])
    · refine Chain.linked_append.mpr ⟨chain, Chain.linked_singleton.mpr ⟨?_, ?_⟩⟩
      · rw [last, ← Chain.lastKey_append]
      · intro p hp
        rw [← Chain.lastKey_append] at hp
        rw [inv.maxSpaceRev_view held] at room
        obtain rfl : prev = some p := last.trans hp
        refine lt_nextSpaceRev (inv.isTid_last held hp) ?_ now
        rintro rfl
        exact room hp
    · intro a mem
      rcases List.mem_append.mp mem with written | next
      · exact ok.tids a (List.mem_append_left _ written)
      · rw [List.mem_singleton.mp next]
        exact isTid_nextSpaceRev prev now
  · cases h

theorem inv_upsert
    (alone : c.transactional = false → ∀ d ∈ s.others i, d.sequencing = false)
    (h : s.work backend i c .upsert = some t) : t.Inv := by
  have ok := inv.sessions i c held
  simp only [State.work] at h
  split at h
  · rename_i a stamped
    have linked := ok.linked
    have tids := ok.tids
    rw [stamped] at linked tids
    split at h
    · rename_i transactional
      cases h
      refine inv.put_self { holds := ?_, plain := ?_, linked := ?_, tids := ?_, prev := by simp }
      · intro _ _
        exact ok.holds transactional (by simp [Session.holding, Session.sequencing, stamped])
      · simp [transactional]
      · simpa [Phase.next] using linked
      · simpa [Phase.next] using tids
    · rename_i plain
      obtain ⟨-, ⟨⟩⟩ := Option.ite_none_right_eq_some.mp h
      have plain : c.transactional = false := by simpa using plain
      have none := ok.plain plain
      rw [none] at linked tids
      have after : (s.put i { c with phase := .idle }).Inv :=
        inv.put_self (ok.move rfl (by simp [plain]) (by simp))
      refine after.publish linked tids ?_
      intro _ j d held
      by_cases same : j = i
      · subst same
        obtain rfl : _ = d := by simpa [State.put] using held
        simp [Session.sequencing, none]
      · refine alone plain d (mem_others ?_ same)
        simpa [State.put, AList.lookup_insert_ne same] using held
  · cases h

theorem inv_commit
    (alone : c.pending ≠ [] → ∀ d ∈ s.others i, d.transactional = false → d.sequencing = false)
    (h : s.work backend i c .commit = some t) : t.Inv := by
  have ok := inv.sessions i c held
  simp only [State.work] at h
  obtain ⟨⟨transactional, idle⟩, ⟨⟩⟩ := Option.ite_none_right_eq_some.mp h
  have linked := ok.linked
  have tids := ok.tids
  simp only [idle, Phase.next, List.append_nil] at linked tids
  refine (inv.disconnect i).publish linked tids ?_
  intro some j d remains
  have ne : j ≠ i := by
    rintro rfl
    simp [State.disconnect] at remains
  rw [State.disconnect, AList.lookup_erase_ne ne] at remains
  cases kind : d.transactional with
  | false => exact alone some d (mem_others remains ne) kind
  | true =>
    -- Both would hold the lock.
    by_contra busy
    have mine := ok.holds transactional (by simp [Session.holding, Session.sequencing, some])
    have other := (inv.sessions j d remains).holds kind (by simp_all [Session.holding])
    exact ne (Option.some.inj (other.symm.trans mine))

end Work

theorem inv_step {a : Action} (inv : s.Inv) (quiet : Undisturbed s a)
    (h : s.step backend a = some t) : t.Inv := by
  cases a with
  | connect i transactional =>
    obtain ⟨-, ⟨⟩⟩ := Option.ite_none_right_eq_some.mp h
    refine inv.put_self ⟨?_, ?_, trivial, ?_, ?_⟩ <;>
      simp [Session.holding, Session.sequencing, Phase.next]
  | close i =>
    cases h
    exact inv.disconnect i
  | work i task =>
    obtain ⟨c, held, h⟩ := Option.bind_eq_some_iff.mp h
    cases task with
    | record => exact inv_record inv held h
    | lock => exact inv_lock inv held h
    | readHeld => exact inv_readHeld inv held h
    | readMax => exact inv_readMax inv held h
    | stamp => exact inv_stamp inv held (quiet c held) h
    | upsert => exact inv_upsert inv held (quiet c held) h
    | commit => exact inv_commit inv held (quiet c held) h

/-! ## The sequence -/

theorem list_map_toWriter {log : List Advance} (asc : Paging.Ascending (·.spaceRev) log)
    (cursor : Option String) (limit : Nat) :
    list ((latest log).map (·.toWriter)) cursor limit =
      ((latest (Paging.after (·.spaceRev) cursor log)).map (·.toWriter)).take limit := by
  have cut : ((latest log).map (·.toWriter)).filter (fun row => cursor.all (· < row.spaceRev)) =
      (latest (Paging.after (·.spaceRev) cursor log)).map (·.toWriter) := by
    rw [List.filter_map]
    exact congrArg _ (Chain.after_latest asc)
  have sorted : ((latest (Paging.after (·.spaceRev) cursor log)).map (·.toWriter)).Pairwise
      fun a b => a.spaceRev ≤ b.spaceRev := by
    rw [List.pairwise_map]
    exact (Chain.ascending_latest (asc.filter _)).imp le_of_lt
  rw [list, cut, sorted.insertionSort_eq]

theorem Inv.sequential (inv : s.Inv) : s.Sequential := by
  have asc := inv.linked.ascending
  have page : ∀ cursor limit, list s.rows cursor limit =
      ((latest (Paging.after (·.spaceRev) cursor s.log)).map (·.toWriter)).take limit := by
    rw [inv.rows]
    exact list_map_toWriter asc
  refine ⟨asc, ?_, page, ?_⟩
  · intro front a back cut
    have linked := inv.linked
    rw [cut] at linked
    exact linked.prev_eq
  · intro front a back cut limit room repo
    -- The chain cut at an assigned revision.
    have rest : Paging.after (·.spaceRev) (some a.spaceRev) s.log = back := by
      rw [cut] at asc ⊢
      exact Paging.after_key asc
    have fits : (latest back).length ≤ limit := by
      have table : latest back = Paging.after (·.spaceRev) (some a.spaceRev) (latest s.log) := by
        rw [← rest]
        exact (Chain.after_latest asc).symm
      rw [inv.rows, List.length_map] at room
      rw [table]
      exact (List.length_filter_le ..).trans room
    rw [page, rest, List.take_of_length_le (by simpa using fits), List.map_map]
    exact Chain.mem_owner_latest

theorem inv_start : ((writers backend).start).Inv where
  rows := rfl
  linked := trivial
  tids := by simp [writers]
  sessions := by simp [writers]

end State

/-- In every run whose steps are undisturbed, the space revisions assigned form one sequence
and cursors cut it where it says. -/
theorem writers_sequential {backend : DatabaseBackend} {actions : List Action} {s : State}
    (run : (writers backend).run actions = some s)
    (quiet : (writers backend).Along Undisturbed actions) : s.Sequential :=
  (Machine.induct_along State.inv_start (fun _ _ _ => State.inv_step) quiet run).sequential

/-- One call of `record` that advances, at `us` by the clock. -/
def recordCall (i : Nat) (repo : String) (us : Nat) : List Action :=
  (recordTasks ⟨repo, Tid.tidFromParts us 0, [1]⟩ us us 0).map (.work i)

/-- A transaction that records two repos, and a plain connection that is opened meanwhile and
records after it has committed. -/
def recordedInTurn : List Action :=
  [.connect 0 true] ++ recordCall 0 "did:plc:a" 100 ++ [.connect 1 false] ++
    recordCall 0 "did:plc:b" 101 ++ [.work 0 .commit] ++ recordCall 1 "did:plc:a" 102

theorem writers_sequential_inTurn : ∃ s, (writers .postgres).run recordedInTurn = some s ∧
    (writers .postgres).Along Undisturbed recordedInTurn ∧
    s.log.map (·.repoDid) = ["did:plc:a", "did:plc:b", "did:plc:a"] ∧ s.Sequential := by
  have quiet : (writers .postgres).Along Undisturbed recordedInTurn := by decide +kernel
  obtain ⟨s, run, advanced⟩ := (Option.any_eq_true _ _).mp
    (by decide +kernel : ((writers .postgres).run recordedInTurn).any (fun s =>
      decide (s.log.map (·.repoDid) = ["did:plc:a", "did:plc:b", "did:plc:a"])) = true)
  exact ⟨s, run, quiet, of_decide_eq_true advanced, writers_sequential run quiet⟩

/-- Two commits adopted at the same time: each plain connection reads the largest space
revision before either writes. -/
def adoptedTogether : List Action :=
  [.connect 0 false, .connect 1 false] ++
    (recordCall 0 "did:plc:a" 100).take 5 ++ recordCall 1 "did:plc:b" 101 ++ [.work 0 .upsert]

/-- Both advances name no predecessor, the second has the smaller space revision, and a
syncer that asks for what came after the first is not told of it. -/
theorem adoptedTogether_not_sequential : ∃ s, (writers .postgres).run adoptedTogether = some s ∧
    s.log.map (fun a => (a.repoDid, a.spaceRev, a.prevSpaceRev)) =
      [("did:plc:b", Tid.tidFromParts 101 0, none), ("did:plc:a", Tid.tidFromParts 100 0, none)] ∧
    list s.rows (some (Tid.tidFromParts 101 0)) 10 = [] ∧ ¬ s.Sequential := by
  obtain ⟨s, run, facts⟩ := (Option.any_eq_true _ _).mp
    (by decide +kernel : ((writers .postgres).run adoptedTogether).any (fun s => decide (
      s.log.map (fun a => (a.repoDid, a.spaceRev, a.prevSpaceRev)) =
        [("did:plc:b", Tid.tidFromParts 101 0, none), ("did:plc:a", Tid.tidFromParts 100 0, none)] ∧
      list s.rows (some (Tid.tidFromParts 101 0)) 10 = [] ∧
      ¬ s.log.Pairwise fun a b => a.spaceRev < b.spaceRev)) = true)
  obtain ⟨log, page, unordered⟩ := of_decide_eq_true facts
  exact ⟨s, run, log, page, fun sequential => unordered sequential.ascending⟩

end HappyView.Spaces.Writers
