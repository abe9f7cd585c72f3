import HappyView.Ingest.Apply
import HappyView.Records.RefAgreement

/-!
# Accounts that were taken down

A takedown, a suspension or a deletion leaves a tombstone of the account, as of when the event
was witnessed. Until the account is active again, whatever the pipeline is handed takes rows of
the account away or leaves them: writes that are no newer are refused, and all else deletes.
-/

namespace HappyView.Ingest

open HappyView.Records HappyView.Tid

inductive Intake where
  | batch (now : Int) (records : List PreparedRecord)
  | event (moment : Moment) (ev : SourceEvent)

def Intake.handle (site : Site) (registered : List String) (s : Store) : Intake → Store
  | .batch now records => (s.writeNetwork now records).1
  | .event moment ev => apply site registered moment s ev

/-- No write of the account newer than `rev`, and no word that it is active. -/
def Intake.Quiet (site : Site) (did rev : String) : Intake → Prop
  | .batch _ records => ∀ rec ∈ records, rec.key.did = did → ∀ own ∈ rec.rev, own ≤ rev
  | .event _ (.record ev) => ∀ rec, site.change ev = some (some rec) → rec.key.did = did →
      ∀ own ∈ rec.rev, own ≤ rev
  | .event _ (.account ev) => ev.did = did → ev.active = false
  | .event _ (.sync _) | .event _ (.identity _ _) => True

/-- The account has a tombstone as new as `rev`. -/
def Buried (did rev : String) (s : Store) : Prop := ∃ own ∈ s.didTombstoneRev did, rev ≤ own

/-- The account is buried, and its rows are some of those in `old`. -/
structure Purged (did rev : String) (old s : Store) : Prop where
  buried : Buried did rev s
  rows : ∀ key, key.did = did → ∀ h ∈ s.held key, h ∈ old.held key

section Steps

variable {did rev other : String} {old s t : Store} {key : RecordKey}

theorem held_of_purge {collections : Option (List String)} {before : Option String} {h : Held}
    (held : h ∈ (s.purge other collections before).held key) : h ∈ s.held key := by
  rw [Store.held_purge] at held
  split at held
  · exact (Option.mem_filter_iff.mp held).1
  · exact held

theorem held_of_deleteNetwork {uri collection now : String} {own : Option String}
    {backfillRunning : Bool} {h : Held}
    (held : h ∈ (s.deleteNetwork uri other collection own now backfillRunning).held key) :
    h ∈ s.held key := by
  unfold Store.held at held ⊢
  rcases RefStore.deleteNetwork_records s uri other collection own now backfillRunning with
    same | erased
  · rwa [same] at held
  · rw [erased] at held
    by_cases here : key = ⟨other, collection, ((parseRecordUri uri).map (·.2.2)).getD ""⟩
    · subst here
      simp at held
    · rwa [AList.lookup_erase_ne here] at held

theorem Buried.writeDidTombstone (buried : Buried did rev s) (later now : String) :
    Buried did rev (s.writeDidTombstone other later now) := by
  obtain ⟨own, here, order⟩ := buried
  by_cases same : did = other
  · subst same
    refine ⟨max own later, ?_, order.trans (le_max_left _ _)⟩
    rw [Store.didTombstoneRev_writeDidTombstone, here]
    rfl
  · refine ⟨own, ?_, order⟩
    unfold Store.writeDidTombstone
    split
    · simpa [Store.didTombstoneRev, AList.lookup_insert_ne same] using here
    · split
      · simpa [Store.didTombstoneRev, AList.lookup_insert_ne same] using here
      · exact here

theorem Buried.accountActive (buried : Buried did rev s) (apart : did ≠ other)
    (before : Option String) : Buried did rev (accountActive s other before) := by
  have erased : (s.didTombstones.erase other).lookup did = s.didTombstones.lookup did :=
    AList.lookup_erase_ne apart
  have lifted : (s.liftDidTombstone other before).didTombstoneRev did = s.didTombstoneRev did := by
    cases before with
    | none => exact congrArg _ erased
    | some before =>
      unfold Store.liftDidTombstone
      dsimp only
      split
      · exact congrArg _ erased
      · rfl
  unfold Ingest.accountActive
  split
  · exact buried
  · split
    · exact buried
    · rwa [Buried, lifted]

/-- A write that is no newer than the tombstone is refused. -/
theorem Buried.refuses (buried : Buried did rev s) {rec : PreparedRecord} (own : rec.key.did = did)
    (quiet : ∀ stamp ∈ rec.rev, stamp ≤ rev) : s.refuses rec = true := by
  obtain ⟨stored, here, order⟩ := buried
  obtain ⟨tombstone, held, rfl⟩ := Option.map_eq_some_iff.mp here
  have older : superseded tombstone.rev rec.rev = true := by
    cases stamp : rec.rev with
    | none => rfl
    | some own => simpa [superseded] using (quiet own stamp).trans order
  rw [Store.refuses, own, held]
  simp [older]

theorem Purged.shrink (purged : Purged did rev old s) (buried : Buried did rev t)
    (rows : ∀ key, ∀ h ∈ t.held key, h ∈ s.held key) : Purged did rev old t :=
  ⟨buried, fun key own h held => purged.rows key own h (rows key h held)⟩

theorem Purged.purge (purged : Purged did rev old s) (collections : Option (List String))
    (before : Option String) : Purged did rev old (s.purge other collections before) := by
  refine purged.shrink ?_ fun key h held => held_of_purge held
  obtain ⟨own, here, order⟩ := purged.buried
  exact ⟨own, by simpa [Store.didTombstoneRev, Store.purge_tombstones] using here, order⟩

theorem Purged.writeDidTombstone (purged : Purged did rev old s) (later now : String) :
    Purged did rev old (s.writeDidTombstone other later now) :=
  purged.shrink (purged.buried.writeDidTombstone later now) fun key h held => by
    simpa [Store.held] using held

theorem Purged.writeNetwork (purged : Purged did rev old s) (now : Int)
    {records : List PreparedRecord}
    (quiet : ∀ rec ∈ records, rec.key.did = did → ∀ own ∈ rec.rev, own ≤ rev) :
    Purged did rev old (s.writeNetwork now records).1 where
  buried := by simpa [Buried, Store.didTombstoneRev, Store.writeNetwork, Store.upsertBatch]
    using purged.buried
  rows key own h held := by
    have dropped : (lastCopies records).filter
        (fun rec => rec.key = key ∧ s.refuses rec = false) = [] := by
      refine List.filter_eq_nil_iff.mpr fun rec mem written => ?_
      obtain ⟨rfl, passed⟩ := of_decide_eq_true written
      have refused := purged.buried.refuses own (quiet rec (lastCopies_sublist.subset mem) own)
      exact absurd (passed.symm.trans refused) (by decide)
    rw [Store.writeNetwork_held, dropped] at held
    exact purged.rows key own h held

theorem Purged.accountEvent (purged : Purged did rev old s) (moment : Moment) {ev : AccountEvent}
    (quiet : ev.did = did → ev.active = false) :
    Purged did rev old (accountEvent moment s ev) := by
  have bury (witnessed : Int) (status before : Option String) : Purged did rev old
      (accountPurged moment s ev.did witnessed status before ev.collections) := by
    unfold accountPurged
    split
    · exact purged
    · exact (purged.writeDidTombstone _ _).purge _ _
  simp only [Ingest.accountEvent]
  split
  · rename_i active
    have apart : did ≠ ev.did := fun same => by simp [quiet same.symm] at active
    refine purged.shrink (purged.buried.accountActive apart _) fun key h held => ?_
    simpa [Store.held] using held
  · split
    · exact bury _ _ _
    · split
      · exact bury _ _ _
      · exact purged

theorem Purged.handle {site : Site} {registered : List String} {intake : Intake}
    (purged : Purged did rev old s) (quiet : intake.Quiet site did rev) :
    Purged did rev old (intake.handle site registered s) := by
  cases intake with
  | batch now records => exact purged.writeNetwork now quiet
  | event moment ev =>
    cases ev with
    | account ev => exact purged.accountEvent moment quiet
    | sync ev => exact purged.purge _ _
    | identity did handle => exact purged
    | record ev =>
      simp only [Intake.handle, apply, applyRecord]
      split
      · rw [applyLocal_eq]
        split
        · exact purged
        · rename_i rec change
          exact purged.writeNetwork _ fun written mem =>
            List.mem_singleton.mp mem ▸ quiet rec change
        · refine purged.shrink ?_ fun key h held => held_of_deleteNetwork held
          simpa [Buried, Store.didTombstoneRev] using purged.buried
      · exact purged

end Steps

/-- Once a takedown, a suspension or a deletion that the PDS does not deny has been applied,
every row of the account after any further batches and events is one that the purge spared,
unless something newer of the account was written or the account was said to be active. -/
theorem stays_purged {site : Site} {registered : List String} {moment : Moment} {s : Store}
    {ev : AccountEvent} {intakes : List Intake} {key : RecordKey} {h : Held}
    (gone : ev.active = false)
    (believed : ev.status = some "takendown" ∨ ev.status = some "suspended" ∨
      ev.status = some "deleted" ∧ moment.activeAtPds = false)
    (whole : ev.collections = none) (own : key.did = ev.did)
    (quiet : ∀ intake ∈ intakes, intake.Quiet site ev.did
      (tidFromUnixMicroseconds ((ev.timeUs.or ev.asOfUs).getD moment.nowUs)))
    (held : (intakes.foldl (Intake.handle site registered)
      (accountEvent moment s ev)).held key = some h) :
    s.held key = some h ∧
      (h.awaitsEcho || (ev.asOfUs.map tidFromUnixMicroseconds).any (!h.olderThan ·)) = true := by
  set witnessed := tidFromUnixMicroseconds ((ev.timeUs.or ev.asOfUs).getD moment.nowUs)
  have applied : accountEvent moment s ev = (s.writeDidTombstone ev.did witnessed
      moment.now).purge ev.did none (ev.asOfUs.map tidFromUnixMicroseconds) := by
    simp only [accountEvent, gone, Bool.false_eq_true, if_false]
    rcases believed with status | status | ⟨status, denied⟩
    · rw [if_neg (by simp [status]), if_pos (.inl status),
        accountPurged_eq (by simp [status]), whole]
    · rw [if_neg (by simp [status]), if_pos (.inr status),
        accountPurged_eq (by simp [status]), whole]
    · rw [if_pos status, accountPurged_eq fun _ => denied, whole]
  have start : Purged ev.did witnessed (accountEvent moment s ev) (accountEvent moment s ev) := by
    refine ⟨⟨(s.didTombstoneRev ev.did).elim witnessed (max · witnessed), ?_, ?_⟩,
      fun _ _ _ held => held⟩
    · rw [applied, Store.didTombstoneRev, Store.purge_tombstones.2, ← Store.didTombstoneRev,
        Store.didTombstoneRev_writeDidTombstone]
      rfl
    · cases s.didTombstoneRev ev.did <;> simp
  have run : Purged ev.did witnessed (accountEvent moment s ev)
      (intakes.foldl (Intake.handle site registered) (accountEvent moment s ev)) := by
    refine List.foldlRecOn intakes _ start fun t purged intake mem => ?_
    exact purged.handle (quiet intake mem)
  have spared := run.rows key own h held
  rw [applied, Store.held_purge] at spared
  simpa [Store.covers, own, Store.held, Option.mem_filter_iff] using spared

/-- A post is written, the account is taken down, and the post comes in again in a batch, as an
event and in another batch, with a sync in between. -/
theorem stays_purged_post :
    let key : RecordKey := ⟨"did:plc:a", "app.bsky.feed.post", "1"⟩
    let post : PreparedRecord := ⟨key, "\x7b\x7d", "bafy", some "2222222222222"⟩
    let site : Site := ⟨fun _ => true, fun _ => false, fun _ body => .store body, fun _ => false⟩
    let moment : Moment := ⟨9, "", false, false, false⟩
    let s := (({} : Store).writeNetwork 0 [post]).1
    let taken := accountEvent moment s ⟨"did:plc:a", false, some "takendown", none, some 5, none⟩
    let intakes : List Intake := [.batch 1 [post], .event moment (.record
      ⟨key, .create, some "bafy", post.rev, some "\x7b\x7d", .live, false⟩),
      .event moment (.sync ⟨"did:plc:a", none, none, none⟩), .batch 2 [post]]
    s.held key ≠ none ∧ (intakes.foldl (Intake.handle site []) taken).held key = none := by
  intro key post site moment s taken intakes
  refine ⟨by decide +kernel, Option.eq_none_iff_forall_ne_some.mpr fun h held => ?_⟩
  have old : "2222222222222" ≤ tidFromUnixMicroseconds 5 := by decide +kernel
  have quiet : ∀ intake ∈ intakes, intake.Quiet site "did:plc:a" (tidFromUnixMicroseconds 5) := by
    simp only [intakes, List.forall_mem_cons]
    refine ⟨?_, ?_, trivial, ?_, by simp⟩
    · simpa [Intake.Quiet, post] using fun _ => old
    · rintro rec ⟨⟩ -
      simpa [prepare, post] using old
    · simpa [Intake.Quiet, post] using fun _ => old
  obtain ⟨stored, spared⟩ := stays_purged rfl (.inl rfl) rfl rfl quiet held
  have row : ∀ row ∈ s.held key, row.awaitsEcho = false := by decide +kernel
  simp [row h stored] at spared

end HappyView.Ingest
