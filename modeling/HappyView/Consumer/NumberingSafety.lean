import HappyView.Consumer.Renumbering

/-!
# Seqs across sessions and numberings

Within a numbering, and as long as the reader keeps its place, the pool is handed events in the
order of their seqs: a session drops what is not above its floor, and resumes no lower than the
last event handed out. The applied point moves over the events in the order they were handed out,
so it follows their seqs.

A notice of a new numbering bars saves until the first event after it has been applied.
-/

namespace HappyView.Consumer

/-! ## The applied point moves forward -/

theorem Watermark.le_retire_front (front : Nat) (applied : Option CursorPoint)
    (pending : List (CursorPoint × Bool)) :
    front ≤ (Watermark.retire front applied pending).front := by
  induction pending generalizing front applied with
  | nil => exact Nat.le_refl front
  | cons slot rest ih =>
    obtain ⟨point, done⟩ := slot
    cases done with
    | false => exact Nat.le_refl front
    | true => exact Nat.le_of_succ_le (ih (front + 1) (some point))

theorem Watermark.le_complete_front (w : Watermark) (ticket : Nat) :
    w.front ≤ (w.complete ticket).front := by
  unfold Watermark.complete
  split
  · exact Nat.le_refl _
  · split
    · exact Nat.le_refl _
    · exact Watermark.le_retire_front ..

theorem Watermark.Tracks.applied_getElem {w : Watermark} {h : History} (t : w.Tracks h)
    {point : CursorPoint} (applied : w.applied = some point) :
    0 < w.front ∧ h.issued[w.front - 1]? = some point := by
  rw [t.applied, List.getLast?_eq_getElem?, List.length_take_of_le t.front_le] at applied
  obtain ⟨inside, -⟩ := List.getElem?_eq_some_iff.mp applied
  rw [List.length_take_of_le t.front_le] at inside
  rw [List.getElem?_take_of_lt inside] at applied
  exact ⟨by omega, applied⟩

theorem Watermark.Tracks.nextTicket_eq {w : Watermark} {h : History} (t : w.Tracks h) :
    w.nextTicket = h.issued.length := by
  have length := t.pending_length
  have le := t.front_le
  unfold Watermark.nextTicket
  omega

def Watermark.Moved (w w' : Watermark) : Prop := w' = w ∨ ∃ ticket, w' = w.complete ticket

theorem Pool.send_moved {K : Type} {c : Config} {p q : Pool K} (h : p.send c = some q) :
    p.watermark.Moved q.watermark := by
  unfold Pool.send at h
  split at h
  · cases h
  · dsimp only at h
    split at h
    · cases h
      exact .inr ⟨_, rfl⟩
    · split at h
      · cases h
        exact .inl rfl
      · cases h

theorem Pool.work_moved {K : Type} {c : Config} {p q : Pool K} {i : Nat} {task : Task}
    (h : p.work c i task = some q) : p.watermark.Moved q.watermark := by
  obtain ⟨-, w, entries, ticket, -, rfl⟩ := Pool.work_cases h
  cases ticket with
  | none => exact .inl rfl
  | some ticket => exact .inr ⟨ticket, rfl⟩

namespace Live

open HappyView.Foundation

variable {K : Type} {host : String} {initial : StoredCursor} {s : State K}
variable {connection : Connection}

/-! ## The invariant -/

/-- Two events of one numbering that were handed out in one session, or without a change of the
reader's place between them. -/
def Mark.Follows (a b : Mark) : Prop :=
  a.numbering = b.numbering ∧ (a.session = b.session ∨ a.rewinds = b.rewinds)

namespace State

def mark (s : State K) (above : Option Int) : Mark := ⟨s.numbering, s.rewinds, s.sessions, above⟩

structure Ordered (host : String) (initial : StoredCursor) (s : State K) : Prop where
  traced : ∃ h, s.pool.watermark.Tracks h ∧ h.issued = s.dispatched.map (·.event.cursor)
  small : ∀ d ∈ s.dispatched, ∀ n, d.seq = some n → n < timestampCursorMin
  past : ∀ d ∈ s.dispatched, d.mark.numbering ≤ s.numbering ∧ d.mark.rewinds ≤ s.rewinds ∧
    d.mark.session ≤ s.sessions
  increasing : s.dispatched.Pairwise fun a b =>
    a.mark.Follows b.mark → ∀ m n, a.seq = some m → b.seq = some n → m < n
  above : ∀ d ∈ s.dispatched, ∀ x n, d.mark.above = some x → d.seq = some n → x < n
  last : ∀ d ∈ s.dispatched, d.mark.numbering = s.numbering → d.mark.rewinds = s.rewinds →
    ∀ n, d.seq = some n → ∃ x, s.lastDispatched = some x ∧ n ≤ x ∧ x < timestampCursorMin
  placeless : s.session.fromTip = true ∨ s.session.protocol = .v1 → s.lastDispatched = none
  seqs : s.session.protocol = .v2 → ∀ d ∈ s.dispatched, ∃ n, d.seq = some n
  /-- Events of the first place are past the seq that the run began at. -/
  begun : ∀ d ∈ s.dispatched, d.mark.numbering = 0 → d.mark.rewinds = 0 →
    ∀ x n, initial.resumeSeq host = some x → d.seq = some n → x < n

/-- While the reader has never left its place, a session resumes from the rows. -/
structure Unturned (host : String) (initial : StoredCursor) (s : State K) : Prop where
  stale : s.session.staleSeq = none
  tip : s.session.fromTip = false
  last : ∀ n, s.lastDispatched = some n → n < timestampCursorMin
  stored : s.session.protocol = .v2 → ∀ x, initial.resumeSeq host = some x →
    ∃ y, s.stored.resumeSeq host = some y ∧ x ≤ y

structure Fenced (host : String) (initial : StoredCursor) (s : State K) : Prop where
  free : s.session.saveBarrier = none → ∀ i d, s.dispatched[i]? = some d →
    s.pool.watermark.front ≤ i + 1 → d.mark.numbering = s.numbering
  barred : ∀ b, s.session.saveBarrier = some b → ∀ i d, s.dispatched[i]? = some d → b ≤ i →
    d.mark.numbering = s.numbering
  saved : ∀ x ∈ s.saves, ∃ i, i < s.pool.watermark.front ∧ s.dispatched[i]? = some x.dispatch
  kept : s.saves.Pairwise fun a b => a.dispatch.mark.numbering = b.dispatch.mark.numbering →
    a.dispatch.mark.rewinds = b.dispatch.mark.rewinds →
      ∀ m n, a.dispatch.seq = some m → b.dispatch.seq = some n → m ≤ n
  current : ∀ x ∈ s.saves, x.dispatch.mark.numbering = x.numbering
  rows : s.stored = s.saves.getLast?.elim initial fun x => .save host x.dispatch.event.cursor

/-- What holds of an open connection: everything handed out from the reader's place, or in this
session, is at or below its floor. -/
structure Opened (host : String) (initial : StoredCursor) (s : State K)
    (connection : Connection) : Prop where
  floor : ∀ d ∈ s.dispatched, d.mark.Follows (s.mark connection.above) → ∀ n, d.seq = some n →
    ∃ f, connection.floor = some f ∧ n ≤ f
  above : ∀ x, connection.above = some x → ∃ f, connection.floor = some f ∧ x ≤ f
  begun : s.numbering = 0 → s.rewinds = 0 → s.session.protocol = .v2 →
    ∀ x, initial.resumeSeq host = some x → ∃ f, connection.floor = some f ∧ x ≤ f

structure Inv (host : String) (initial : StoredCursor) (s : State K) : Prop where
  ordered : s.Ordered host initial
  unturned : s.numbering = 0 → s.rewinds = 0 → s.Unturned host initial
  fenced : s.Fenced host initial
  opened : ∀ connection, s.link.connection = some connection → s.Opened host initial connection

theorem Inv.relink (inv : s.Inv host initial) {link : Link}
    (kept : ∀ connection, link.connection = some connection → s.Opened host initial connection) :
    { s with link }.Inv host initial where
  ordered := { inv.ordered with }
  unturned := fun first here => { inv.unturned first here with }
  fenced := { inv.fenced with }
  opened := fun connection here => { kept connection here with }

theorem Inv.drain (inv : s.Inv host initial) (reading : s.link = .reading connection)
    (ended : Ended) : { s with link := .draining connection ended }.Inv host initial := by
  refine inv.relink ?_
  rintro _ ⟨⟩
  exact inv.opened connection (by rw [reading]; rfl)

/-! ## Workers -/

theorem Inv.moved (inv : s.Inv host initial) {pool : Pool K}
    (moved : s.pool.watermark.Moved pool.watermark) : { s with pool }.Inv host initial := by
  have onward : s.pool.watermark.front ≤ pool.watermark.front := by
    obtain same | ⟨ticket, completed⟩ := moved
    · rw [same]
    · rw [completed]
      exact s.pool.watermark.le_complete_front ticket
  obtain ⟨h, tracks, issued⟩ := inv.ordered.traced
  refine ⟨{ inv.ordered with traced := ?_ }, fun first here => { inv.unturned first here with },
    { inv.fenced with free := ?_, saved := ?_ }, fun c here => { inv.opened c here with }⟩
  · obtain same | ⟨ticket, completed⟩ := moved
    · exact ⟨h, same ▸ tracks, issued⟩
    · exact ⟨h.complete ticket, completed ▸ tracks.complete ticket, by simpa using issued⟩
  · exact fun free i d at_i later => inv.fenced.free free i d at_i (onward.trans later)
  · intro x mem
    obtain ⟨i, before, at_i⟩ := inv.fenced.saved x mem
    exact ⟨i, before.trans_le onward, at_i⟩

/-! ## Saves -/

theorem Inv.unbar (inv : s.Inv host initial)
    (retired : ∀ b, s.session.saveBarrier = some b → b < s.pool.watermark.front) :
    { s with session := { s.session with saveBarrier := none } }.Inv host initial := by
  refine ⟨{ inv.ordered with }, fun first here => { inv.unturned first here with },
    { inv.fenced with free := ?_, barred := nofun }, fun c here => { inv.opened c here with }⟩
  intro _ i d at_i later
  cases barrier : s.session.saveBarrier with
  | none => exact inv.fenced.free barrier i d at_i later
  | some b =>
    have passed := retired b barrier
    dsimp only at later
    exact inv.fenced.barred b barrier i d at_i (by omega)

theorem Ordered.applied (ordered : s.Ordered host initial) {point : CursorPoint}
    (applied : s.pool.watermark.applied = some point) :
    0 < s.pool.watermark.front ∧ ∃ d, s.dispatched[s.pool.watermark.front - 1]? = some d ∧
      d.event.cursor = point := by
  obtain ⟨h, tracks, issued⟩ := ordered.traced
  obtain ⟨positive, at_front⟩ := tracks.applied_getElem applied
  rw [issued, List.getElem?_map] at at_front
  exact ⟨positive, Option.map_eq_some_iff.mp at_front⟩

theorem Ordered.seq_le (ordered : s.Ordered host initial) {i j : Nat} {a b : Dispatch K}
    (le : i ≤ j) (at_i : s.dispatched[i]? = some a) (at_j : s.dispatched[j]? = some b)
    (numbering : a.mark.numbering = b.mark.numbering) (rewinds : a.mark.rewinds = b.mark.rewinds)
    {m n : Int} (seq_a : a.seq = some m) (seq_b : b.seq = some n) : m ≤ n := by
  obtain ⟨i_lt, rfl⟩ := List.getElem?_eq_some_iff.mp at_i
  obtain ⟨j_lt, rfl⟩ := List.getElem?_eq_some_iff.mp at_j
  obtain before | rfl := Nat.lt_or_eq_of_le le
  · have order := List.pairwise_iff_getElem.mp ordered.increasing i j i_lt j_lt before
    exact Int.le_of_lt (order ⟨numbering, .inr rewinds⟩ m n seq_a seq_b)
  · rw [seq_a] at seq_b
    exact Int.le_of_eq (Option.some.inj seq_b)

theorem Inv.save (inv : s.Inv host initial) (free : s.session.saveBarrier = none)
    {point : CursorPoint} (applied : s.pool.watermark.applied = some point) :
    (s.save host point).Inv host initial := by
  obtain ⟨positive, d, at_front, rfl⟩ := inv.ordered.applied applied
  have mem := List.mem_of_getElem? at_front
  have saves : (s.save host d.event.cursor).saves = s.saves ++ [⟨d, s.numbering⟩] := by
    simp [State.save, at_front]
  refine ⟨{ inv.ordered with }, fun first here => { inv.unturned first here with stored := ?_ },
    ⟨inv.fenced.free, inv.fenced.barred, ?_, ?_, ?_, ?_⟩, fun c here => { inv.opened c here with }⟩
  · intro v2 x begins
    obtain ⟨n, seq⟩ := inv.ordered.seqs v2 d mem
    have first : s.numbering = 0 := first
    have here : s.rewinds = 0 := here
    have past := inv.ordered.past d mem
    have after := inv.ordered.begun d mem (by omega) (by omega) x n begins seq
    exact ⟨n, StoredCursor.resumeSeq_save host seq (inv.ordered.small d mem n seq),
      Int.le_of_lt after⟩
  · rw [saves]
    intro x listed
    obtain old | new := List.mem_append.mp listed
    · exact inv.fenced.saved x old
    · obtain rfl := List.mem_singleton.mp new
      exact ⟨_, Nat.sub_lt positive Nat.one_pos, at_front⟩
  · rw [saves]
    refine List.pairwise_append.mpr ⟨inv.fenced.kept, List.pairwise_singleton _ _, ?_⟩
    intro x old y new numbering rewinds m n seq_x seq_y
    obtain rfl := List.mem_singleton.mp new
    obtain ⟨i, before, at_i⟩ := inv.fenced.saved x old
    exact inv.ordered.seq_le (Nat.le_sub_one_of_lt before) at_i at_front numbering rewinds seq_x
      seq_y
  · rw [saves]
    intro x listed
    obtain old | new := List.mem_append.mp listed
    · exact inv.fenced.current x old
    · obtain rfl := List.mem_singleton.mp new
      exact inv.fenced.free free _ d at_front (by omega)
  · rw [saves]
    simp [State.save]

theorem flush_cases (host : String) (s : State K) (connection : Connection) (saving : Saving) :
    s.flush host connection saving = (s, connection) ∨
    ∃ point, s.pool.watermark.applied = some point ∧
      (∀ b, s.session.saveBarrier = some b → b < s.pool.watermark.front) ∧
      ∃ saved, (s.flush host connection saving).2 = { connection with lastSaved := saved } ∧
        ((s.flush host connection saving).1 =
            { s with session := { s.session with saveBarrier := none } } ∨
          (s.flush host connection saving).1 =
            { s with session := { s.session with saveBarrier := none } }.save host point) := by
  unfold flush
  split
  · exact .inl rfl
  rename_i point found
  have point_eq : s.pool.watermark.applied = some point ∧
      ∀ b, s.session.saveBarrier = some b → b < s.pool.watermark.front := by
    unfold flushPoint at found
    split at found
    · rename_i ticket barrier
      unfold Watermark.appliedIfRetired Watermark.hasRetired at found
      split at found
      · rename_i retired
        refine ⟨found, fun b same => ?_⟩
        rw [barrier] at same
        cases same
        exact of_decide_eq_true retired
      · cases found
    · rename_i barrier
      refine ⟨found, fun b same => ?_⟩
      rw [barrier] at same
      cases same
  refine .inr ⟨point, point_eq.1, point_eq.2, ?_⟩
  dsimp only
  split
  · exact ⟨_, rfl, .inl rfl⟩
  · cases saving with
    | done => exact ⟨_, rfl, .inr rfl⟩
    | failed => exact ⟨_, rfl, .inl rfl⟩
    | unreported => exact ⟨_, rfl, .inr rfl⟩

theorem Inv.flush (inv : s.Inv host initial) (connection : Connection) (saving : Saving) :
    (s.flush host connection saving).1.Inv host initial := by
  obtain same | ⟨point, applied, retired, saved, -, lifted | written⟩ :=
    flush_cases host s connection saving
  · rw [same]
    exact inv
  · rw [lifted]
    exact inv.unbar retired
  · rw [written]
    exact (inv.unbar retired).save rfl applied

theorem flush_link (host : String) (s : State K) (connection : Connection) (saving : Saving) :
    (s.flush host connection saving).1.link = s.link ∧
      ∃ saved, (s.flush host connection saving).2 = { connection with lastSaved := saved } := by
  obtain same | ⟨point, -, -, saved, kept, lifted | written⟩ := flush_cases host s connection saving
  · rw [same]
    exact ⟨rfl, connection.lastSaved, rfl⟩
  · rw [lifted]
    exact ⟨rfl, saved, kept⟩
  · rw [written]
    exact ⟨rfl, saved, kept⟩

/-! ## The reader's place -/

theorem Inv.rewind (inv : s.Inv host initial) (down : s.link = .down) {session : Session}
    {last : Option Int} (barrier : session.saveBarrier = s.session.saveBarrier)
    (protocol : session.protocol = .v2 → s.session.protocol = .v2)
    (placeless : session.fromTip = true ∨ session.protocol = .v1 → last = none) :
    { s.rewind last with session := session }.Inv host initial := by
  have later : ∀ d ∈ s.dispatched, d.mark.rewinds ≠ s.rewinds + 1 := by
    intro d mem
    have past := inv.ordered.past d mem
    omega
  refine ⟨{ inv.ordered with past := ?_, last := ?_, placeless := placeless, seqs := ?_ }, ?_,
    { inv.fenced with free := ?_, barred := ?_ }, ?_⟩
  · intro d mem
    obtain ⟨numbering, rewinds, session⟩ := inv.ordered.past d mem
    exact ⟨numbering, Nat.le_succ_of_le rewinds, session⟩
  · exact fun d mem _ same => absurd same (later d mem)
  · exact fun v2 => inv.ordered.seqs (protocol v2)
  · intro _ none
    cases none
  · exact fun free => inv.fenced.free (barrier ▸ free)
  · exact fun b same => inv.fenced.barred b (barrier ▸ same)
  · intro connection here
    rw [show ({ s.rewind last with session := session } : State K).link = s.link from rfl,
      down] at here
    cases here

theorem Inv.resession (inv : s.Inv host initial) {session : Session}
    (barrier : session.saveBarrier = s.session.saveBarrier)
    (protocol : session.protocol = s.session.protocol)
    (stale : session.staleSeq = s.session.staleSeq)
    (tip : session.fromTip = true → s.session.fromTip = true) :
    { s with session := session }.Inv host initial := by
  refine ⟨{ inv.ordered with placeless := ?_, seqs := ?_ }, fun first here => ?_,
    { inv.fenced with free := ?_, barred := ?_ },
    fun c here => { inv.opened c here with begun := ?_ }⟩
  · rintro (from_tip | v1)
    · exact inv.ordered.placeless (.inl (tip from_tip))
    · exact inv.ordered.placeless (.inr (protocol ▸ v1))
  · exact fun v2 => inv.ordered.seqs (protocol ▸ v2)
  · have unturned := inv.unturned first here
    refine { unturned with stale := stale.trans unturned.stale, tip := ?_, stored := ?_ }
    · by_contra from_tip
      have was := tip (by simpa using from_tip)
      rw [unturned.tip] at was
      cases was
    · exact fun v2 => unturned.stored (protocol ▸ v2)
  · exact fun free => inv.fenced.free (barrier ▸ free)
  · exact fun b same => inv.fenced.barred b (barrier ▸ same)
  · exact fun first place v2 => (inv.opened c here).begun first place (protocol ▸ v2)

theorem Inv.resumeWithoutSeq (inv : s.Inv host initial) (down : s.link = .down)
    (loads toTip : Bool) : (s.resumeWithoutSeq loads toTip).1.Inv host initial := by
  unfold State.resumeWithoutSeq
  dsimp only
  split
  · exact inv
  split
  · exact inv
  · exact inv.rewind down rfl id fun _ => rfl

theorem Inv.handleRejection (inv : s.Inv host initial) (down : s.link = .down)
    (refusal : Refusal) : (s.handleRejection host refusal).Inv host initial := by
  have counted (n : Nat) (tip : Bool) (kept : tip = true → s.session.fromTip = true) :
      { s with session := { s.session with unexplained400s := n, fromTip := tip } }.Inv host
        initial := inv.resession rfl rfl rfl kept
  unfold State.handleRejection
  split
  · -- not found
    split
    · exact inv.rewind down rfl (fun v2 => by cases v2) fun _ => rfl
    · exact inv
  · -- a cursor too old
    dsimp only
    split
    · rename_i afterSeq tip floor replay
      refine inv.rewind down rfl id ?_
      rintro (from_tip | v1)
      · cases from_tip
      · split at floor
        · rename_i gap
          rw [gap.1] at v1
          cases v1
        · cases floor
    · exact inv.resumeWithoutSeq down _ _
  · exact inv.resession rfl rfl rfl nofun
  · -- a 400 without a name
    dsimp only
    split
    · exact counted _ _ id
    · split
      · have next := counted (s.session.unexplained400s + 1) s.session.fromTip id
        have resumed := next.resumeWithoutSeq down refusal.loads false
        split
        · rename_i same
          rw [same] at resumed
          exact resumed
        · exact counted _ _ nofun
      · exact counted _ _ nofun
  all_goals exact inv

theorem Inv.subscribe (inv : s.Inv host initial) : (s.subscribe host).Inv host initial :=
  inv.resession rfl rfl rfl id

theorem Ordered.le_resume (ordered : s.Ordered host initial) {d : Dispatch K}
    (mem : d ∈ s.dispatched) (numbering : d.mark.numbering = s.numbering)
    (rewinds : d.mark.rewinds = s.rewinds) {n : Int} (seq : d.seq = some n) :
    s.session.protocol = .v2 ∧ ∃ f, seqCursor (s.resume host) = some f ∧ n ≤ f := by
  obtain ⟨x, last, le, small⟩ := ordered.last d mem numbering rewinds n seq
  have placed : ¬ (s.session.fromTip = true ∨ s.session.protocol = .v1) := by
    intro without
    rw [ordered.placeless without] at last
    cases last
  obtain ⟨tip, v1⟩ := not_or.mp placed
  have v2 : s.session.protocol = .v2 := by
    cases protocol : s.session.protocol with
    | v1 => exact absurd protocol v1
    | v2 => rfl
  have seqs : ∀ m, s.lastDispatched = some m → m < timestampCursorMin := by
    intro m same
    rw [last] at same
    cases same
    exact small
  obtain ⟨f, resumes, le'⟩ : ∃ f, seqCursor (v2Resume
      ((s.session.load s.stored).resumeCursor host .v2) s.lastDispatched) = some f ∧ x ≤ f :=
    le_resume_of_last seqs last
  refine ⟨v2, f, ?_, by omega⟩
  simpa [resume, tip, v2] using resumes

theorem Unturned.le_resume (unturned : s.Unturned host initial)
    (v2 : s.session.protocol = .v2) {x : Int} (begins : initial.resumeSeq host = some x) :
    ∃ f, seqCursor (s.resume host) = some f ∧ x ≤ f := by
  obtain ⟨y, stored, le⟩ := unturned.stored v2 x begins
  obtain ⟨f, resumes, le'⟩ := le_resume_of_saved unturned.last stored
  have load : s.session.load s.stored = s.stored := by
    unfold Session.load
    rw [unturned.stale]
    grind
  refine ⟨f, ?_, by omega⟩
  simpa [resume, unturned.tip, v2, load] using resumes

theorem Inv.connect (inv : s.Inv host initial) : (s.connect host).Inv host initial := by
  have sessions : ∀ d ∈ s.dispatched, d.mark.session ≠ s.sessions + 1 := by
    intro d mem
    have past := inv.ordered.past d mem
    omega
  refine ⟨{ inv.ordered with past := ?_ }, fun first here => { inv.unturned first here with },
    { inv.fenced with }, ?_⟩
  · intro d mem
    obtain ⟨numbering, rewinds, session⟩ := inv.ordered.past d mem
    exact ⟨numbering, rewinds, Nat.le_succ_of_le session⟩
  · rintro connection ⟨⟩
    refine ⟨?_, fun x same => ⟨x, same, Int.le_refl x⟩, ?_⟩
    · rintro d mem ⟨numbering, new | rewinds⟩ n seq
      · exact absurd new (sessions d mem)
      · obtain ⟨v2, f, resumes, le⟩ := inv.ordered.le_resume mem numbering rewinds seq
        exact ⟨f, by simpa only [v2] using resumes, le⟩
    · intro first here v2 x begins
      obtain ⟨f, resumes, le⟩ := (inv.unturned first here).le_resume v2 begins
      have protocol : s.session.protocol = .v2 := v2
      exact ⟨f, by simpa only [protocol] using resumes, le⟩

/-! ## Frames -/

theorem Inv.futureCursor (inv : s.Inv host initial) :
    (s.futureCursor connection).Inv host initial := by
  obtain ⟨h, tracks, issued⟩ := inv.ordered.traced
  have next : s.pool.watermark.nextTicket = s.dispatched.length := by
    rw [tracks.nextTicket_eq, issued, List.length_map]
  have before : ∀ d ∈ s.dispatched, d.mark.numbering ≠ s.numbering + 1 := by
    intro d mem
    have past := inv.ordered.past d mem
    omega
  refine ⟨{ inv.ordered with past := ?_, last := ?_, placeless := fun _ => rfl }, nofun,
    { inv.fenced with free := nofun, barred := ?_ }, ?_⟩
  · intro d mem
    obtain ⟨numbering, rest⟩ := inv.ordered.past d mem
    exact ⟨Nat.le_succ_of_le numbering, rest⟩
  · exact fun d mem same => absurd same (before d mem)
  · rintro b ⟨⟩ i d at_i late
    obtain ⟨inside, -⟩ := List.getElem?_eq_some_iff.mp at_i
    rw [next] at late
    exact absurd inside (Nat.not_lt.mpr late)
  · intro renumbered here
    have disowned : renumbered = { connection with floor := none, above := none } := by
      unfold State.futureCursor at here
      dsimp only at here
      split at here
      · exact (Option.some.inj here).symm
      · exact (Option.some.inj here).symm
    subst disowned
    refine ⟨?_, nofun, nofun⟩
    rintro d mem ⟨same, -⟩
    exact absurd same (before d mem)

structure Hands (s : State K) (connection connection' : Connection) (last : Option Int)
    (event : Event K) : Prop where
  above : connection'.above = connection.above
  seq : ∀ n, event.cursor.seq = some n → s.session.protocol = .v2 ∧ n < timestampCursorMin ∧
    (∀ f, connection.floor = some f → f < n) ∧ connection'.floor = some n ∧ last = some n
  plain : event.cursor.seq = none →
    s.session.protocol = .v1 ∧ connection'.floor = connection.floor ∧ last = s.lastDispatched

section Dispatch

variable {connection' : Connection} {last : Option Int} {event : Event K}

theorem Hands.exceeds (hands : s.Hands connection connection' last event)
    (opened : s.Opened host initial connection) {d : Dispatch K} (mem : d ∈ s.dispatched)
    (follows : d.mark.Follows (s.mark connection.above)) {m n : Int} (seq_d : d.seq = some m)
    (seq : event.cursor.seq = some n) : m < n := by
  obtain ⟨f, floor, le⟩ := opened.floor d mem follows m seq_d
  obtain ⟨-, -, above, -⟩ := hands.seq n seq
  exact Int.lt_of_le_of_lt le (above f floor)

theorem Hands.raises (hands : s.Hands connection connection' last event) {m : Int}
    (below : ∃ f, connection.floor = some f ∧ m ≤ f) :
    ∃ f, connection'.floor = some f ∧ m ≤ f := by
  obtain ⟨f, floor, le⟩ := below
  cases seq : event.cursor.seq with
  | none =>
    obtain ⟨-, same, -⟩ := hands.plain seq
    exact ⟨f, same.trans floor, le⟩
  | some n =>
    obtain ⟨-, -, above, raised, -⟩ := hands.seq n seq
    exact ⟨n, raised, Int.le_of_lt (Int.lt_of_le_of_lt le (above f floor))⟩

def handed (s : State K) (pool : Pool K) (connection : Connection) (last : Option Int)
    (event : Event K) : State K :=
  { s with
    pool
    lastDispatched := last
    session := { s.session with fromTip := false }
    link := .reading connection
    dispatched := s.dispatched ++ [⟨event, s.mark connection.above⟩] }

theorem dispatch_cases {t : State K} (step : s.dispatch connection last event = some t) :
    ∃ pool, s.pool.read event = some pool ∧ t = s.handed pool connection last event := by
  obtain ⟨pool, read, rfl⟩ := Option.map_eq_some_iff.mp step
  exact ⟨pool, read, rfl⟩

theorem mem_handed {pool : Pool K} {d : Dispatch K} :
    d ∈ (s.handed pool connection last event).dispatched ↔
      d ∈ s.dispatched ∨ d = ⟨event, s.mark connection.above⟩ := by
  simp [handed]

theorem handed_getElem {pool : Pool K} {i : Nat} {d : Dispatch K}
    (here : (s.handed pool connection last event).dispatched[i]? = some d) :
    s.dispatched[i]? = some d ∨ d = ⟨event, s.mark connection.above⟩ := by
  by_cases inside : i < s.dispatched.length
  · rw [handed, List.getElem?_append_left inside] at here
    exact .inl here
  · rw [handed, List.getElem?_append_right (Nat.not_lt.mp inside), List.getElem?_singleton] at here
    split at here
    · exact .inr (Option.some.inj here).symm
    · cases here

variable {pool : Pool K}

theorem Ordered.handed (ordered : s.Ordered host initial)
    (opened : s.Opened host initial connection)
    (hands : s.Hands connection connection' last event) (read : s.pool.read event = some pool) :
    (s.handed pool connection' last event).Ordered host initial := by
  obtain ⟨-, rfl⟩ := Pool.read_cases read
  obtain ⟨h, tracks, issued⟩ := ordered.traced
  refine ⟨?_, ?_, ?_, ?_, ?_, ?_, ?_, ?_, ?_⟩
  · exact ⟨h.begin event.cursor, tracks.begin event.cursor, by
      simp [State.handed, History.begin, issued]⟩
  · intro d mem n seq
    obtain old | rfl := mem_handed.mp mem
    · exact ordered.small d old n seq
    · exact (hands.seq n seq).2.1
  · intro d mem
    obtain old | rfl := mem_handed.mp mem
    · exact ordered.past d old
    · exact ⟨Nat.le_refl _, Nat.le_refl _, Nat.le_refl _⟩
  · refine List.pairwise_append.mpr ⟨ordered.increasing, List.pairwise_singleton _ _, ?_⟩
    intro d old e new follows m n seq_d seq_e
    obtain rfl := List.mem_singleton.mp new
    exact hands.exceeds opened old follows seq_d seq_e
  · intro d mem x n above seq
    obtain old | rfl := mem_handed.mp mem
    · exact ordered.above d old x n above seq
    · obtain ⟨f, floor, le⟩ := opened.above x (hands.above ▸ above)
      exact Int.lt_of_le_of_lt le ((hands.seq n seq).2.2.1 f floor)
  · intro d mem numbering rewinds m seq
    cases at_seq : event.cursor.seq with
    | none =>
      obtain ⟨-, -, same⟩ := hands.plain at_seq
      obtain old | rfl := mem_handed.mp mem
      · rw [State.handed, same]
        exact ordered.last d old numbering rewinds m seq
      · exact absurd (seq.symm.trans at_seq) (by simp)
    | some n =>
      obtain ⟨-, small, -, -, next⟩ := hands.seq n at_seq
      refine ⟨n, next, ?_, small⟩
      obtain old | rfl := mem_handed.mp mem
      · exact Int.le_of_lt (hands.exceeds opened old ⟨numbering, .inr rewinds⟩ seq at_seq)
      · exact Int.le_of_eq (Option.some.inj (seq.symm.trans at_seq))
  · rintro (from_tip | v1)
    · cases from_tip
    · cases at_seq : event.cursor.seq with
      | none =>
        obtain ⟨-, -, same⟩ := hands.plain at_seq
        exact same.trans (ordered.placeless (.inr v1))
      | some n => exact absurd ((hands.seq n at_seq).1.symm.trans v1) (by decide)
  · intro v2 d mem
    obtain old | rfl := mem_handed.mp mem
    · exact ordered.seqs v2 d old
    · cases at_seq : event.cursor.seq with
      | none => exact absurd ((hands.plain at_seq).1.symm.trans v2) (by decide)
      | some n => exact ⟨n, at_seq⟩
  · intro d mem numbering rewinds x n begins seq
    obtain old | rfl := mem_handed.mp mem
    · exact ordered.begun d old numbering rewinds x n begins seq
    · obtain ⟨v2, -, above, -⟩ := hands.seq n seq
      obtain ⟨f, floor, le⟩ := opened.begun numbering rewinds v2 x begins
      exact Int.lt_of_le_of_lt le (above f floor)

theorem Unturned.handed (unturned : s.Unturned host initial)
    (hands : s.Hands connection connection' last event) :
    (s.handed pool connection' last event).Unturned host initial := by
  refine { unturned with tip := rfl, last := fun n same => ?_ }
  cases seq : event.cursor.seq with
  | none =>
    obtain ⟨-, -, kept⟩ := hands.plain seq
    exact unturned.last n (kept.symm.trans same)
  | some m =>
    obtain ⟨-, small, -, -, next⟩ := hands.seq m seq
    exact Option.some.inj (next.symm.trans same) ▸ small

theorem Fenced.handed (fenced : s.Fenced host initial) (read : s.pool.read event = some pool) :
    (s.handed pool connection' last event).Fenced host initial := by
  obtain ⟨-, rfl⟩ := Pool.read_cases read
  refine { fenced with free := ?_, barred := ?_, saved := ?_ }
  · intro free i d here later
    obtain old | rfl := handed_getElem here
    · exact fenced.free free i d old later
    · rfl
  · intro b barrier i d here late
    obtain old | rfl := handed_getElem here
    · exact fenced.barred b barrier i d old late
    · rfl
  · intro x mem
    obtain ⟨i, before, old⟩ := fenced.saved x mem
    refine ⟨i, before, ?_⟩
    rw [State.handed, List.getElem?_append_left (List.getElem?_eq_some_iff.mp old).1]
    exact old

theorem Opened.handed (opened : s.Opened host initial connection)
    (hands : s.Hands connection connection' last event) :
    (s.handed pool connection' last event).Opened host initial connection' := by
  refine ⟨?_, ?_, ?_⟩
  · intro d mem follows m seq
    obtain old | rfl := mem_handed.mp mem
    · exact hands.raises (opened.floor d old follows m seq)
    · obtain ⟨-, -, -, raised, -⟩ := hands.seq m seq
      exact ⟨m, raised, Int.le_refl m⟩
  · exact fun x above => hands.raises (opened.above x (hands.above ▸ above))
  · exact fun first here v2 x begins => hands.raises (opened.begun first here v2 x begins)

theorem Inv.dispatch (inv : s.Inv host initial) (opened : s.Opened host initial connection)
    (hands : s.Hands connection connection' last event) {t : State K}
    (step : s.dispatch connection' last event = some t) : t.Inv host initial := by
  obtain ⟨pool, read, rfl⟩ := dispatch_cases step
  refine ⟨inv.ordered.handed opened hands read,
    fun first here => (inv.unturned first here).handed hands, inv.fenced.handed read, ?_⟩
  rintro _ ⟨⟩
  exact opened.handed hands

end Dispatch

theorem Inv.receive (inv : s.Inv host initial) (opened : s.Opened host initial connection)
    {event : Event K} {t : State K}
    (parsed : (Frame.event event).parsed s.session.protocol = true)
    (small : ∀ n, event.cursor.seq = some n → n < timestampCursorMin)
    (step : s.receive connection event = some t) : t.Inv host initial := by
  unfold State.receive at step
  split at step
  · rename_i n seq
    have v2 : s.session.protocol = .v2 := by
      cases protocol : s.session.protocol with
      | v1 => simp [Frame.parsed, protocol, seq] at parsed
      | v2 => rfl
    split at step
    · cases step
      exact inv
    · rename_i unseen
      have above : ∀ f, connection.floor = some f → f < n := by
        intro f floor
        simpa [floor] using unseen
      have hands : s.Hands connection { connection with floor := some n } (some n) event := by
        refine ⟨rfl, fun m same => ?_, fun none => ?_⟩
        · obtain rfl := Option.some.inj (seq.symm.trans same)
          exact ⟨v2, small n seq, above, rfl, rfl⟩
        · exact absurd (seq.symm.trans none) (by simp)
      exact inv.dispatch opened hands step
  · rename_i none
    have v1 : s.session.protocol = .v1 := by
      cases protocol : s.session.protocol with
      | v1 => rfl
      | v2 => simp [Frame.parsed, protocol, none] at parsed
    refine inv.dispatch opened ⟨rfl, fun m same => ?_, fun _ => ⟨v1, rfl, rfl⟩⟩ step
    exact absurd (none.symm.trans same) (by simp)

/-! ## Runs -/

theorem inv_start (settings : Settings) :
    ({ session := .new settings, stored := initial } : State K).Inv host initial := by
  refine ⟨⟨⟨{}, Watermark.tracks_empty, rfl⟩, ?_, ?_, .nil, ?_, ?_, fun _ => rfl, ?_, ?_⟩,
    fun _ _ => ⟨rfl, rfl, nofun, fun _ x begins => ⟨x, begins, Int.le_refl x⟩⟩,
    ⟨?_, ?_, ?_, .nil, ?_, rfl⟩, ?_⟩ <;> simp [Link.connection]

end State

/-- Jetstream's seqs are below what it reads as a time. -/
def Turn.SeqBelow : Turn K → Prop
  | .frame (.event event) => ∀ n, event.cursor.seq = some n → n < timestampCursorMin
  | _ => True

namespace State

theorem Inv.read (inv : s.Inv host initial) (opened : s.Opened host initial connection)
    {frame : Frame K} {t : State K} (parsed : frame.parsed s.session.protocol = true)
    (small : (Turn.frame frame).SeqBelow) (step : s.read connection frame = some t) :
    t.Inv host initial := by
  cases frame with
  | event event => exact inv.receive opened parsed small step
  | info name =>
    cases step
    split
    · exact inv.futureCursor
    · exact inv
  | error =>
    cases step
    refine inv.relink ?_
    rintro _ ⟨⟩
    exact opened
  | skip =>
    cases step
    exact inv

theorem Inv.finish (inv : s.Inv host initial) (ended : Ended) (saving : Saving) :
    (s.finish host connection ended saving).Inv host initial := by
  have down : { (s.flush host connection saving).1 with link := .down }.Inv host initial :=
    (inv.flush connection saving).relink (by simp [Link.connection])
  cases ended with
  | collectionsChanged => exact down.rewind rfl rfl id fun _ => rfl
  | closed => exact down
  | renumbered => exact down

theorem Inv.step {settings : Settings} (inv : s.Inv settings.host initial) {turn : Turn K}
    {t : State K} (small : turn.SeqBelow) (step : s.step settings turn = some t) :
    t.Inv settings.host initial := by
  cases turn with
  | connect =>
    simp only [State.step] at step
    split at step
    · cases step
      exact inv.connect
    · cases step
  | fail =>
    simp only [State.step] at step
    split at step
    · cases step
      exact inv.subscribe
    · cases step
  | refuse refusal =>
    simp only [State.step] at step
    split at step
    · rename_i down
      cases step
      exact inv.subscribe.handleRejection down refusal
    · cases step
  | frame frame =>
    simp only [State.step] at step
    split at step
    · rename_i connection reading
      split at step
      · rename_i ready
        exact inv.read (inv.opened connection (by rw [reading]; rfl)) ready.2 small step
      · cases step
    · cases step
  | flush saving =>
    simp only [State.step] at step
    split at step
    · rename_i connection reading
      split at step
      · cases step
        have after := inv.flush connection saving
        obtain ⟨link, saved, kept⟩ := flush_link settings.host s connection saving
        have opened := after.opened connection (by rw [link, reading]; rfl)
        refine after.relink ?_
        rintro _ ⟨⟩
        rw [kept]
        exact { opened with }
      · cases step
    · cases step
  | close =>
    simp only [State.step] at step
    split at step
    · rename_i connection reading
      split at step
      · cases step
        exact inv.drain reading .closed
      · cases step
    · cases step
  | collectionsChanged =>
    simp only [State.step] at step
    split at step
    · rename_i connection reading
      split at step
      · cases step
        exact inv.drain reading .collectionsChanged
      · cases step
    · cases step
  | finish timedOut saving =>
    simp only [State.step] at step
    split at step
    · split at step
      · cases step
        exact inv.finish _ saving
      · cases step
    · cases step
  | send =>
    obtain ⟨pool, sends, rfl⟩ := Option.map_eq_some_iff.mp step
    exact inv.moved (Pool.send_moved sends)
  | work i task =>
    obtain ⟨pool, works, rfl⟩ := Option.map_eq_some_iff.mp step
    exact inv.moved (Pool.work_moved works)

end State

/-- Whatever the server refuses, sends and announces, and however the sessions and the workers
interleave:

* an event is handed out only above the seq its session resumed from, and in one session and
  numbering only in the order of the seqs, so no event is handed out twice;
* the seqs saved do not decrease from one event to another of the same numbering, unless the
  reader left its place between them, and no event of the first place is saved below where the
  run began;
* an event is saved only in the numbering it was handed out in.

The rows are what was saved last. -/
theorem numbering_safe (settings : Settings) (initial : StoredCursor) {turns : List (Turn K)}
    {s : State K} (run : (live settings initial).run turns = some s)
    (small : ∀ turn ∈ turns, turn.SeqBelow) :
    ((∀ d ∈ s.dispatched, ∀ x n, d.mark.above = some x → d.seq = some n → x < n) ∧
      s.dispatched.Pairwise fun a b => a.mark.session = b.mark.session →
        a.mark.numbering = b.mark.numbering → ∀ m n, a.seq = some m → b.seq = some n → m < n) ∧
    (s.saves.Pairwise (fun a b => a.dispatch.mark.numbering = b.dispatch.mark.numbering →
        a.dispatch.mark.rewinds = b.dispatch.mark.rewinds →
          ∀ m n, a.dispatch.seq = some m → b.dispatch.seq = some n → m ≤ n) ∧
      ∀ x ∈ s.saves, x.dispatch.mark.numbering = 0 → x.dispatch.mark.rewinds = 0 →
        ∀ m n, initial.resumeSeq settings.host = some m → x.dispatch.seq = some n → m < n) ∧
    (∀ x ∈ s.saves, x.dispatch.mark.numbering = x.numbering) ∧
    s.stored = s.saves.getLast?.elim initial
      fun x => .save settings.host x.dispatch.event.cursor := by
  have inv : s.Inv settings.host initial :=
    Machine.induct_along (M := live settings initial) (State.inv_start settings)
      (fun _ _ _ inv small step => inv.step small step)
      (Machine.alongFrom_of_forall (fun turn mem _ => small turn mem) _) run
  refine ⟨⟨inv.ordered.above, ?_⟩, ⟨inv.fenced.kept, ?_⟩, inv.fenced.current, inv.fenced.rows⟩
  · exact inv.ordered.increasing.imp fun follows session numbering =>
      follows ⟨numbering, .inl session⟩
  · intro x mem numbering rewinds m n begins seq
    obtain ⟨i, -, at_i⟩ := inv.fenced.saved x mem
    exact inv.ordered.begun _ (List.mem_of_getElem? at_i) numbering rewinds m n begins seq

/-! ### Two runs -/

def oneWorkerSettings : Settings := ⟨"js", .v2, ⟨1, 8, ⟨[], 60⟩, fun _ => 0⟩⟩

def savedFive : StoredCursor :=
  { seq := some 5, timeUs := some (timestampCursorMin + 5), host := some "js" }

def eventAt (seq : Int) : Event Unit := ⟨"did:plc:a", .v2 seq (timestampCursorMin + seq), ()⟩

def receiveAll (seqs : List Int) : List (Turn Unit) :=
  seqs.flatMap fun seq => [.frame (.event (eventAt seq)), .send]

def applyNext : List (Turn Unit) :=
  [.work 0 .recv, .work 0 .call, .work 0 (.reply .applied), .work 0 .complete]

def cutShort : List (Turn Unit) :=
  [.connect] ++ receiveAll [6, 7] ++ [.close, .finish true .done]

def renumberedRun : List (Turn Unit) :=
  cutShort ++ [.connect, .frame (.info "FutureCursor"), .finish true .done, .connect] ++
    receiveAll [1] ++ applyNext ++ applyNext ++ [.flush .done] ++ applyNext ++ [.flush .done]

theorem numbering_safe_renumbered : ∃ s, (live oneWorkerSettings savedFive).run renumberedRun =
      some s ∧ s.numbering = 1 ∧ s.stored.resumeSeq "js" = some 1 ∧
      ∀ x ∈ s.saves, x.dispatch.mark.numbering = x.numbering := by
  obtain ⟨s, run, facts⟩ := (Option.any_eq_true _ _).mp (by decide +kernel :
    ((live oneWorkerSettings savedFive).run renumberedRun).any
      (fun s => s.numbering = 1 ∧ s.stored.resumeSeq "js" = some 1) = true)
  obtain ⟨numbering, saved⟩ := of_decide_eq_true facts
  refine ⟨s, run, numbering, saved, (numbering_safe _ _ run ?_).2.2.1⟩
  have below : ∀ turn ∈ renumberedRun, ∀ event, turn = .frame (.event event) →
      ∃ seq ∈ ([6, 7, 1] : List Int), event = eventAt seq := by
    intro turn mem event same
    subst same
    simpa [renumberedRun, cutShort, receiveAll, applyNext] using mem
  intro turn mem
  unfold Turn.SeqBelow
  split
  · rename_i event
    obtain ⟨seq, listed, rfl⟩ := below _ mem event rfl
    have small : ∀ seq ∈ ([6, 7, 1] : List Int), seq < timestampCursorMin := by decide
    rintro n ⟨⟩
    exact small seq listed
  · trivial

/-- The server refuses the cursor as too old while the two events are being applied: the next
session goes by time, and is sent the first of them again. -/
def refusedRun : List (Turn Unit) :=
  cutShort ++ [.refuse ⟨.cursorTooOld, true, none⟩, .connect] ++ applyNext ++ applyNext ++
    [.flush .done]

/-- With the filter and the numbering unchanged, the saved seq goes back from 7 to 6. -/
theorem saved_seq_decreases : ∃ s t, (live oneWorkerSettings savedFive).run refusedRun = some s ∧
    (live oneWorkerSettings savedFive).runFrom s (receiveAll [6] ++ applyNext ++ [.flush .done]) =
      some t ∧ t.numbering = 0 ∧
    s.stored.resumeSeq "js" = some 7 ∧ t.stored.resumeSeq "js" = some 6 := by
  obtain ⟨s, run, facts⟩ := (Option.any_eq_true _ _).mp (by decide +kernel :
    ((live oneWorkerSettings savedFive).run refusedRun).any (fun s =>
      s.stored.resumeSeq "js" = some 7 ∧ ((live oneWorkerSettings savedFive).runFrom s
        (receiveAll [6] ++ applyNext ++ [.flush .done])).any (fun t =>
          t.numbering = 0 ∧ t.stored.resumeSeq "js" = some 6)) = true)
  obtain ⟨seven, rest⟩ := of_decide_eq_true facts
  obtain ⟨t, onward, facts⟩ := (Option.any_eq_true _ _).mp rest
  obtain ⟨numbering, six⟩ := of_decide_eq_true facts
  exact ⟨s, t, run, onward, numbering, seven, six⟩

end Live

end HappyView.Consumer
