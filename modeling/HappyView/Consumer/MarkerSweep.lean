import HappyView.Consumer.MarkerSteps

/-!
# Markers after commits

A replay of the archive applies the commits of an account first and its account and sync events
afterwards, each as of its own time. `sweep_agrees_iff` compares that with the same history in seq
order: the same records and the same tombstone are left, unless a record that a marker purged was
written again with the content it had.
-/

namespace HappyView.Consumer

open HappyView.Records HappyView.Ingest HappyView.Tid HappyView.Foundation

section Runs

variable (site : Site) (tracked : List String) (moment : Event EventKind → Moment)

def runLive (s : Store) (events : List (Event EventKind)) : Store :=
  events.foldl (fun s event => applyEvent site tracked (moment event) s event) s

def runSweep (s : Store) (events : List (Event EventKind)) : Store :=
  (events.filter (!·.isCommit)).foldl
    (fun s event => applyReplayedMarker site tracked (moment event) s event)
    (runLive site tracked moment s (events.filter (·.isCommit)))

end Runs

/-! ## Whole histories -/

section Histories

variable {site : Site} {tracked : List String} {moment : Event EventKind → Moment} {did : String}
  {s : Store} {key : RecordKey} {events : List (Event EventKind)}

/-- No PDS says that an account is active when it is asked about a deletion. -/
def Believed (moment : Event EventKind → Moment) (events : List (Event EventKind)) : Prop :=
  ∀ event ∈ events, event.isDeletion → (moment event).activeAtPds = false

def acts (site : Site) (tracked : List String) (key : RecordKey)
    (events : List (Event EventKind)) : List (LatePurge.Act Held String) :=
  events.filterMap (·.act site tracked key)

theorem runLive_held (order : InSeqOrder did events) (older : Older did s events)
    (believed : Believed moment events) :
    (runLive site tracked moment s events).held key =
      heldRows.live (s.held key) (acts site tracked key events) := by
  induction events generalizing s with
  | nil => rfl
  | cons event events ih =>
    have first := believed event List.mem_cons_self
    refine (ih order.tail (older.step order first) fun later mem =>
      believed later (List.mem_cons_of_mem _ mem)).trans ?_
    rw [applyEvent_held order older first, acts, acts, List.filterMap_cons]
    cases event.act site tracked key <;> rfl

theorem runLive_tombstone (order : InSeqOrder did events) (older : Older did s events)
    (believed : Believed moment events) :
    (runLive site tracked moment s events).didTombstoneRev did =
      events.foldl Event.bury (s.didTombstoneRev did) := by
  induction events generalizing s with
  | nil => rfl
  | cons event events ih =>
    have first := believed event List.mem_cons_self
    refine (ih order.tail (older.step order first) fun later mem =>
      believed later (List.mem_cons_of_mem _ mem)).trans ?_
    rw [applyEvent_tombstone order older first]
    rfl

/-! ### The commits of a sweep -/

theorem InSeqOrder.filter (order : InSeqOrder did events) (p : Event EventKind → Bool) :
    InSeqOrder did (events.filter p) where
  own event mem := order.own event (List.mem_filter.mp mem).1
  commits event mem := order.commits event (List.mem_filter.mp mem).1
  ordered := order.ordered.sublist List.filter_sublist

theorem Older.filter (older : Older did s events) (p : Event EventKind → Bool) :
    Older did s (events.filter p) where
  commits event mem := older.commits event (List.mem_filter.mp mem).1
  accounts event mem := older.accounts event (List.mem_filter.mp mem).1

theorem act_marker (site : Site) (tracked : List String) (key : RecordKey)
    {event : Event EventKind} (marker : event.isCommit = false) :
    event.act site tracked key =
      if event.purges tracked key then some (.purge event.asOf) else none := by
  cases kind : event.kind with
  | commit c => simp [Event.isCommit, kind] at marker
  | _ => simp only [Event.act, kind]

theorem act_commit {event : Event EventKind} (commit : event.isCommit = true) (time : String) :
    event.act site tracked key ≠ some (.purge time) := by
  cases kind : event.kind with
  | commit c =>
    intro found
    simp only [Event.act, kind] at found
    obtain ⟨-, found⟩ := Option.ite_none_right_eq_some.mp found
    obtain ⟨written, -, eq⟩ := Option.map_eq_some_iff.mp found
    cases written <;> cases eq
  | _ => simp [Event.isCommit, kind] at commit

theorem acts_commits : acts site tracked key (events.filter (·.isCommit)) =
    (acts site tracked key events).filter (!·.isPurge) := by
  simp only [acts, List.filterMap_filter, List.filter_filterMap]
  refine List.filterMap_congr fun event _ => ?_
  cases commit : event.isCommit with
  | true =>
    cases found : event.act site tracked key with
    | none => rfl
    | some act =>
      cases act with
      | purge time => exact absurd found (act_commit commit time)
      | _ => rfl
  | false =>
    rw [act_marker site tracked key commit, if_neg Bool.false_ne_true]
    by_cases purges : event.purges tracked key = true
    · rw [if_pos purges]
      rfl
    · rw [if_neg purges]
      rfl

theorem live_commits (h : Option Held) :
    heldRows.live h (acts site tracked key (events.filter (·.isCommit))) =
      heldRows.unpurged h (acts site tracked key events) := by
  rw [acts_commits, LatePurge.Rows.live_filter]

/-! ### The markers of a sweep -/

theorem times_markers :
    LatePurge.times (acts site tracked key (events.filter (!·.isCommit))) =
      LatePurge.times (acts site tracked key events) := by
  simp only [LatePurge.times, acts, List.filterMap_filterMap, List.filterMap_filter]
  refine List.filterMap_congr fun event _ => ?_
  cases commit : event.isCommit with
  | false => rfl
  | true =>
    cases found : event.act site tracked key with
    | none => rfl
    | some act =>
      cases act with
      | purge time => exact absurd found (act_commit commit time)
      | _ => rfl

theorem applyReplayedMarkers_held (markers : ∀ event ∈ events, event.isCommit = false)
    (believed : Believed moment events) :
    (events.foldl (fun s event => applyReplayedMarker site tracked (moment event) s event) s).held
        key = (LatePurge.times (acts site tracked key events)).foldl heldRows.purgeAsOf
          (s.held key) := by
  induction events generalizing s with
  | nil => rfl
  | cons event events ih =>
    have marker := markers event List.mem_cons_self
    refine (ih (fun later mem => markers later (List.mem_cons_of_mem _ mem)) fun later mem =>
      believed later (List.mem_cons_of_mem _ mem)).trans ?_
    have held : (applyReplayedMarker site tracked (moment event) s event).held key = _ :=
      (congrArg (Store.held · key) (applyReplayedMarker_eq marker)).trans
        (applyMarkerAt_held marker (believed event List.mem_cons_self) true)
    dsimp only
    rw [held]
    have found := act_marker site tracked key marker
    unfold acts
    split
    · rename_i purges
      rw [if_pos purges] at found
      rw [List.filterMap_cons_some found]
      rfl
    · rename_i keeps
      rw [if_neg keeps] at found
      rw [List.filterMap_cons_none found]

theorem applyReplayedMarkers_tombstone (order : InSeqOrder did events)
    (markers : ∀ event ∈ events, event.isCommit = false) (believed : Believed moment events)
    (older : ∀ event ∈ events, event.isAccount → ∀ t ∈ s.didTombstoneRev did, t < event.asOf) :
    (events.foldl (fun s event => applyReplayedMarker site tracked (moment event) s event)
        s).didTombstoneRev did = events.foldl Event.bury (s.didTombstoneRev did) := by
  induction events generalizing s with
  | nil => rfl
  | cons event events ih =>
    have marker := markers event List.mem_cons_self
    have before := (List.pairwise_cons.mp order.ordered).1
    have buried : (applyReplayedMarker site tracked (moment event) s event).didTombstoneRev did =
        event.bury (s.didTombstoneRev did) := by
      obtain rfl := order.own event List.mem_cons_self
      rw [applyReplayedMarker_eq marker]
      exact applyMarkerAt_tombstone marker (believed event List.mem_cons_self)
        (older event List.mem_cons_self) true
    refine (ih order.tail (fun later mem => markers later (List.mem_cons_of_mem _ mem))
      (fun later mem => believed later (List.mem_cons_of_mem _ mem)) ?_).trans ?_
    · intro later mem account t held
      dsimp only at held
      rw [buried] at held
      exact (before later mem).bury_lt account
        (older later (List.mem_cons_of_mem _ mem) account) t held
    · dsimp only
      rw [buried]
      rfl

theorem foldl_bury_markers (tombstone : Option String) :
    (events.filter (!·.isCommit)).foldl Event.bury tombstone =
      events.foldl Event.bury tombstone := by
  induction events generalizing tombstone with
  | nil => rfl
  | cons event events ih =>
    cases kind : event.kind with
    | commit c =>
      rw [List.filter_cons_of_neg (by simp [Event.isCommit, kind]), ih, List.foldl_cons]
      simp [Event.bury, kind]
    | _ =>
      rw [List.filter_cons_of_pos (by simp [Event.isCommit, kind]), List.foldl_cons,
        List.foldl_cons, ih]

theorem foldl_bury_commits (tombstone : Option String) :
    (events.filter (·.isCommit)).foldl Event.bury tombstone = tombstone := by
  induction events generalizing tombstone with
  | nil => rfl
  | cons event events ih =>
    cases kind : event.kind with
    | commit c =>
      rw [List.filter_cons_of_pos (by simp [Event.isCommit, kind]), List.foldl_cons]
      simpa [Event.bury, kind] using ih tombstone
    | _ => rw [List.filter_cons_of_neg (by simp [Event.isCommit, kind]), ih]

theorem Believed.filter (believed : Believed moment events) (p : Event EventKind → Bool) :
    Believed moment (events.filter p) := fun event mem =>
  believed event (List.mem_filter.mp mem).1

theorem runSweep_held (order : InSeqOrder did events) (older : Older did s events)
    (believed : Believed moment events) :
    (runSweep site tracked moment s events).held key =
      heldRows.sweep (s.held key) (acts site tracked key events) := by
  have markers : ∀ event ∈ events.filter (!·.isCommit), event.isCommit = false := by
    intro event mem
    simpa using (List.mem_filter.mp mem).2
  rw [runSweep, applyReplayedMarkers_held markers (believed.filter _),
    runLive_held (order.filter _) (older.filter _) (believed.filter _), live_commits,
    times_markers, LatePurge.Rows.sweep]

theorem runSweep_tombstone (order : InSeqOrder did events) (older : Older did s events)
    (believed : Believed moment events) :
    (runSweep site tracked moment s events).didTombstoneRev did =
      events.foldl Event.bury (s.didTombstoneRev did) := by
  have markers : ∀ event ∈ events.filter (!·.isCommit), event.isCommit = false := by
    intro event mem
    simpa using (List.mem_filter.mp mem).2
  have commits : (runLive site tracked moment s (events.filter (·.isCommit))).didTombstoneRev did =
      s.didTombstoneRev did := by
    rw [runLive_tombstone (order.filter _) (older.filter _) (believed.filter _),
      foldl_bury_commits]
  rw [runSweep, applyReplayedMarkers_tombstone (order.filter _) markers (believed.filter _),
    commits, foldl_bury_markers]
  rw [commits]
  exact (older.filter _).accounts

/-! ### The two orders -/

def RowsOlder (tracked : List String) (s : Store) (events : List (Event EventKind)) : Prop :=
  ∀ event ∈ events, ∀ key, event.purges tracked key → ∀ h ∈ s.held key, h.awaitsEcho = false →
    h.olderThan event.asOf

theorem act_write {event : Event EventKind} {row : Held}
    (found : event.act site tracked key = some (.write row)) :
    row.awaitsEcho = false ∧ ∃ c, event.kind = .commit c ∧ row.rev = c.rev := by
  cases kind : event.kind with
  | commit c =>
    simp only [Event.act, kind] at found
    obtain ⟨-, found⟩ := Option.ite_none_right_eq_some.mp found
    obtain ⟨written, change, eq⟩ := Option.map_eq_some_iff.mp found
    cases written with
    | none => cases eq
    | some rec =>
      obtain rfl := LatePurge.Act.write.inj eq
      exact ⟨rfl, c, rfl, (change_write change).2⟩
  | _ =>
    rw [act_marker site tracked key (by simp [Event.isCommit, kind])] at found
    split at found <;> cases found

theorem act_purge {event : Event EventKind} {time : String}
    (found : event.act site tracked key = some (.purge time)) :
    event.isCommit = false ∧ event.purges tracked key = true ∧ event.asOf = time := by
  cases commit : event.isCommit with
  | true => exact absurd found (act_commit commit time)
  | false =>
    rw [act_marker site tracked key commit] at found
    obtain ⟨purges, eq⟩ := Option.ite_none_right_eq_some.mp found
    exact ⟨rfl, purges, LatePurge.Act.purge.inj (Option.some.inj eq)⟩

theorem Event.Before.commit_lt {event later : Event EventKind} (before : event.Before later)
    {c : Commit} (kind : event.kind = .commit c) (purges : later.purges tracked key = true) :
    ∀ r ∈ c.rev, r < later.asOf := by
  cases kind' : later.kind with
  | account active status => simpa [Event.Before, kind, kind'] using before
  | sync rev => simpa [Event.Before, kind, kind'] using before
  | _ => simp [Event.purges, kind'] at purges

theorem Event.Before.le_commit {event later : Event EventKind} (before : event.Before later)
    {c : Commit} (kind : later.kind = .commit c) (purges : event.purges tracked key = true) :
    ∀ r ∈ c.rev, event.asOf ≤ r := by
  cases kind' : event.kind with
  | account active status =>
    simp only [Event.Before, kind, kind'] at before
    exact fun r mem => le_of_lt (before r mem)
  | sync rev => simpa [Event.Before, kind, kind'] using before
  | _ => simp [Event.purges, kind'] at purges

theorem acts_ordered (order : InSeqOrder did events) (aged : RowsOlder tracked s events) :
    heldRows.Ordered (s.held key) (acts site tracked key events) where
  written row mem := by
    obtain ⟨event, -, found⟩ := List.mem_filterMap.mp mem
    exact (act_write found).1
  first row held here time mem := by
    obtain ⟨event, within, found⟩ := List.mem_filterMap.mp mem
    obtain ⟨-, purges, rfl⟩ := act_purge found
    exact aged event within key purges row held here
  acts := by
    refine List.pairwise_filterMap.mpr (order.ordered.imp_of_mem ?_)
    intro event later mem mem' before act found act' found'
    cases act with
    | delete => trivial
    | write row =>
      cases act' with
      | purge time =>
        obtain ⟨-, c, kind, rev⟩ := act_write found
        obtain ⟨-, purges, rfl⟩ := act_purge found'
        exact Held.olderThan_iff.mpr (rev ▸ before.commit_lt kind purges)
      | _ => trivial
    | purge time =>
      cases act' with
      | write row =>
        obtain ⟨-, purges, rfl⟩ := act_purge found
        obtain ⟨-, c, kind, rev⟩ := act_write found'
        obtain ⟨r, at_⟩ := Option.isSome_iff_exists.mp (order.commits later mem' c kind).1
        refine Bool.eq_false_iff.mpr fun older => ?_
        have older := Held.olderThan_iff.mp older r (rev.trans at_)
        exact absurd older (not_lt.mpr (before.le_commit kind purges r at_))
      | _ => trivial

end Histories

/-- Commits first and markers late leave the same records and the same tombstone as seq order
just in case no record is written again with the content that its last marker purged. -/
theorem sweep_agrees_iff (site : Site) (tracked : List String) {did : String} {s : Store}
    {events : List (Event EventKind)} (order : InSeqOrder did events) (older : Older did s events)
    (aged : RowsOlder tracked s events) {live sweep : Event EventKind → Moment}
    (believed : Believed live events) (believed' : Believed sweep events) :
    ((∀ key, (runLive site tracked live s events).held key =
        (runSweep site tracked sweep s events).held key) ∧
      (runLive site tracked live s events).didTombstoneRev did =
        (runSweep site tracked sweep s events).didTombstoneRev did) ↔
      ∀ key, ¬ heldRows.Restored (s.held key) (acts site tracked key events) := by
  have tombstones : (runLive site tracked live s events).didTombstoneRev did =
      (runSweep site tracked sweep s events).didTombstoneRev did := by
    rw [runLive_tombstone order older believed, runSweep_tombstone order older believed']
  rw [and_iff_left tombstones]
  refine forall_congr' fun key => ?_
  rw [runLive_held order older believed, runSweep_held order older believed']
  exact (acts_ordered order aged).live_eq_sweep_iff

/-! ### A record that comes back unchanged -/

def plainSite : Site where
  isTracked _ := true
  claims _ := false
  hook _ body := .store body
  deleteHook _ := false

def plainMoment : Moment := ⟨0, "", false, false, false⟩

/-- A commit of the record `app.note/1`, at a rev of that time. -/
def noteCommit (timeUs : Int) (body cid : String) : Event EventKind where
  did := "did:plc:a"
  cursor := .v2 timeUs timeUs
  kind := .commit ⟨some (tidFromUnixMicroseconds timeUs), "create", "app.note", "1", some body,
    some cid⟩

def noteSync (timeUs : Int) : Event EventKind where
  did := "did:plc:a"
  cursor := .v2 timeUs timeUs
  kind := .sync (some (tidFromUnixMicroseconds timeUs))

/-- A note, a sync of its repo, and the note again, as the sync's authoritative record. -/
def resynced (body cid : String) : List (Event EventKind) :=
  [noteCommit 10 "note" "bafy", noteSync 20, noteCommit 30 body cid]

theorem resynced_inSeqOrder (body cid : String) : InSeqOrder "did:plc:a" (resynced body cid) where
  own event mem := by
    simp only [resynced, List.mem_cons, List.not_mem_nil, or_false] at mem
    rcases mem with rfl | rfl | rfl <;> rfl
  commits event mem c kind := by
    have wf : RecordKey.WellFormed ⟨"did:plc:a", "app.note", "1"⟩ := by decide +kernel
    simp only [resynced, List.mem_cons, List.not_mem_nil, or_false] at mem
    rcases mem with rfl | rfl | rfl <;> cases kind <;> exact ⟨rfl, wf⟩
  ordered := by
    have first : tidFromUnixMicroseconds 10 < tidFromUnixMicroseconds 20 := by decide +kernel
    have second : tidFromUnixMicroseconds 20 < tidFromUnixMicroseconds 30 := by decide +kernel
    have toSync : (noteCommit 10 "note" "bafy").Before (noteSync 20) := by
      rintro r ⟨⟩
      exact first
    have toCommit : (noteCommit 10 "note" "bafy").Before (noteCommit 30 body cid) := by
      rintro - r ⟨⟩ r' ⟨⟩
      exact first.trans second
    have fromSync : (noteSync 20).Before (noteCommit 30 body cid) := by
      rintro r ⟨⟩
      exact le_of_lt second
    simp [resynced, toSync, toCommit, fromSync]

theorem older_empty (did : String) (events : List (Event EventKind)) : Older did {} events where
  commits _ _ _ _ _ _ := by
    constructor <;> simp [Store.held, Store.cell, Store.didTombstoneRev]
  accounts _ _ _ := by simp [Store.didTombstoneRev]

theorem rowsOlder_empty (tracked : List String) (events : List (Event EventKind)) :
    RowsOlder tracked {} events := by
  intro event _ key _ h mem
  simp [Store.held] at mem

theorem believed_plain (events : List (Event EventKind)) :
    Believed (fun _ => plainMoment) events := fun _ _ _ => rfl

/-- The note comes back unchanged after the sync: it is there in seq order, and the late sync
deletes it. -/
theorem resynced_lost :
    InSeqOrder "did:plc:a" (resynced "note" "bafy") ∧
      ((runLive plainSite ["app.note"] (fun _ => plainMoment) {} (resynced "note" "bafy")).held
        ⟨"did:plc:a", "app.note", "1"⟩).isSome = true ∧
      ((runSweep plainSite ["app.note"] (fun _ => plainMoment) {} (resynced "note" "bafy")).held
        ⟨"did:plc:a", "app.note", "1"⟩).isSome = false :=
  ⟨resynced_inSeqOrder _ _, by decide +kernel, by decide +kernel⟩

/-- A note that changed is there either way. -/
theorem sweep_agrees_changed :
    (∀ key, (runLive plainSite ["app.note"] (fun _ => plainMoment) {}
        (resynced "changed" "bafz")).held key =
      (runSweep plainSite ["app.note"] (fun _ => plainMoment) {}
        (resynced "changed" "bafz")).held key) ∧
    (runLive plainSite ["app.note"] (fun _ => plainMoment) {}
        (resynced "changed" "bafz")).didTombstoneRev "did:plc:a" =
      (runSweep plainSite ["app.note"] (fun _ => plainMoment) {}
        (resynced "changed" "bafz")).didTombstoneRev "did:plc:a" := by
  refine (sweep_agrees_iff plainSite ["app.note"] (resynced_inSeqOrder _ _) (older_empty _ _)
    (rowsOlder_empty _ _) (believed_plain _) (believed_plain _)).mpr fun key => ?_
  rintro ⟨before, time, after, c, eq, last, some_, all⟩
  have commit (timeUs : Int) (body cid : String) :
      (noteCommit timeUs body cid).act plainSite ["app.note"] key =
        if (⟨"did:plc:a", "app.note", "1"⟩ : RecordKey) = key then
          some (.write ⟨body, cid, some (tidFromUnixMicroseconds timeUs), true⟩)
        else none := rfl
  have list : acts plainSite ["app.note"] key (resynced "changed" "bafz") =
      [noteCommit 10 "note" "bafy", noteSync 20, noteCommit 30 "changed" "bafz"].filterMap
        (·.act plainSite ["app.note"] key) := rfl
  rw [list] at eq
  by_cases here : (⟨"did:plc:a", "app.note", "1"⟩ : RecordKey) = key
  · have sync : (noteSync 20).act plainSite ["app.note"] key =
        some (.purge (tidFromUnixMicroseconds 20)) := by
      subst here
      rfl
    simp only [List.filterMap_cons, commit, if_pos here, sync, List.filterMap_nil] at eq
    rcases before with - | ⟨x, - | ⟨y, - | ⟨z, more⟩⟩⟩ <;> simp at eq
    obtain ⟨rfl, -, rfl⟩ := eq
    obtain ⟨row, written, content⟩ := all _ List.mem_cons_self
    obtain rfl := LatePurge.Act.write.inj written
    obtain rfl := Option.some.inj last
    exact absurd (congrArg Prod.fst content) (by decide : "changed" ≠ "note")
  · simp only [List.filterMap_cons, commit, if_neg here, List.filterMap_nil] at eq
    cases sync : (noteSync 20).act plainSite ["app.note"] key with
    | none => simp [sync] at eq
    | some act =>
      rw [sync] at eq
      rcases before with - | ⟨x, more⟩ <;> simp at eq
      exact some_ eq.2

end HappyView.Consumer
