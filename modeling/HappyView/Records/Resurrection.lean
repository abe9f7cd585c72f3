import HappyView.Records.Cell
import Mathlib.Data.List.Induction

/-!
# Deleted records stay deleted

A row and the tombstone of the same record are written by different statements under
different guards. `Cell.Ordered` ties them: a row with a rev is newer than the
tombstone beside it. Every call keeps that, never moves a tombstone back, and never
moves back the rev of a row that stays, as long as the URIs of deletes parse. A delete whose URI
does not parse looks for a row under an empty record key, and buries a record whose row stays.
-/

namespace HappyView.Records

namespace Cell

def Ordered (c : Cell) : Prop := ∀ t ∈ c.tombstone, ∀ row ∈ c.row, ∀ v ∈ row.rev, t < v

def TombstoneLE (c d : Cell) : Prop := ∀ t ∈ c.tombstone, ∃ t' ∈ d.tombstone, t ≤ t'

/-- A row that is there before and after knows a rev at least as new. -/
def RevLE (c d : Cell) : Prop :=
  ∀ row ∈ c.row, ∀ row' ∈ d.row, ∀ v ∈ row.rev, ∃ v' ∈ row'.rev, v ≤ v'

variable {c d : Cell}

theorem TombstoneLE.refl (c : Cell) : TombstoneLE c c := fun t ht => ⟨t, ht, le_refl t⟩

theorem TombstoneLE.trans {e : Cell} (h : TombstoneLE c d) (k : TombstoneLE d e) :
    TombstoneLE c e := fun t ht => by
  obtain ⟨t', ht', le⟩ := h t ht
  obtain ⟨t'', ht'', le'⟩ := k t' ht'
  exact ⟨t'', ht'', le.trans le'⟩

theorem RevLE.refl (c : Cell) : RevLE c c := fun row h row' h' v hv => by
  obtain rfl := Option.mem_unique h h'
  exact ⟨v, hv, le_refl v⟩

theorem RevLE.trans {e : Cell} (h : RevLE c d) (k : RevLE d e) (there : d.row.isSome) :
    RevLE c e := fun row hr row'' hr'' v hv => by
  obtain ⟨row', hr'⟩ := Option.isSome_iff_exists.mp there
  obtain ⟨v', hv', le⟩ := h row hr row' hr' v hv
  obtain ⟨v'', hv'', le'⟩ := k row' hr' row'' hr'' v' hv'
  exact ⟨v'', hv'', le.trans le'⟩

/-! ## Upserts -/

theorem onConflict_rev {row excluded merged : Row} {kind : WriteKind}
    (h : row.onConflict excluded kind = some merged) :
    merged.rev = row.rev ∨ merged.rev = excluded.rev ∧
      ∃ v', excluded.rev = some v' ∧ ∀ v ∈ row.rev, v ≤ v' := by
  cases kind with
  | network =>
    simp only [Row.onConflict, Option.ite_none_right_eq_some, Option.some.injEq] at h
    obtain ⟨⟨-, newer⟩, rfl⟩ := h
    cases rev : excluded.rev with
    | none => exact .inl rfl
    | some v' => exact .inr ⟨rfl, v', rfl, fun v hv => newer v hv v' rev⟩
  | echoed | indexOnly =>
    cases h
    exact .inl rfl

theorem upsert_row (c : Cell) (kind : WriteKind) (excluded : Row) :
    ∃ row', (c.upsert kind excluded).row = some row' ∧
      ((∃ row ∈ c.row, row'.rev = row.rev) ∨
        row'.rev = excluded.rev ∧ ∀ row ∈ c.row, ∀ v ∈ row.rev, ∃ v' ∈ excluded.rev, v ≤ v') := by
  cases stored : c.row with
  | none => exact ⟨excluded, by simp [upsert, stored], .inr ⟨rfl, by simp⟩⟩
  | some row =>
    cases merge : row.onConflict excluded kind with
    | none => exact ⟨row, by simp [upsert, stored, merge], .inl ⟨row, rfl, rfl⟩⟩
    | some merged =>
      refine ⟨merged, by simp [upsert, stored, merge], ?_⟩
      rcases onConflict_rev merge with kept | ⟨taken, v', hv', newer⟩
      · exact .inl ⟨row, rfl, kept⟩
      · refine .inr ⟨taken, fun row' hr v hv => ⟨v', hv', newer v ?_⟩⟩
        obtain rfl : row = row' := Option.some.inj hr
        exact hv

theorem RevLE.upsert (c : Cell) (kind : WriteKind) (excluded : Row) :
    RevLE c (c.upsert kind excluded) := by
  intro row hr row' hr' v hv
  obtain ⟨after, there, kept | ⟨taken, newer⟩⟩ := c.upsert_row kind excluded
  · obtain ⟨before, hb, same⟩ := kept
    obtain rfl := Option.mem_unique hb hr
    obtain rfl := Option.mem_unique there hr'
    exact ⟨v, same ▸ hv, le_refl v⟩
  · obtain rfl := Option.mem_unique there hr'
    obtain ⟨v', hv', le⟩ := newer row hr v hv
    exact ⟨v', taken ▸ hv', le⟩

theorem Ordered.upsert (ordered : c.Ordered) {kind : WriteKind} {rec : PreparedRecord} (now : Int)
    (admitted : kind = .network → c.blocks rec.rev = false) :
    (c.upsert kind (rec.row kind now)).Ordered := by
  intro t ht row' hr' v hv
  obtain ⟨after, there, ⟨row, hr, same⟩ | ⟨taken, -⟩⟩ := c.upsert_row kind (rec.row kind now)
  · obtain rfl := Option.mem_unique there hr'
    exact ordered t ht row hr v (same ▸ hv)
  · obtain rfl := Option.mem_unique there hr'
    rw [taken] at hv
    -- Only a network write carries a rev, and it passed the tombstone check.
    cases kind with
    | network =>
      have passed := admitted rfl
      have carried : rec.rev = some v := hv
      have held : c.tombstone = some t := ht
      simpa [blocks, held, carried, superseded] using passed
    | echoed | indexOnly => cases hv

/-- What upserts may do: the tombstone stays as it is and so does a row, at a newer rev. -/
structure Upserts (c d : Cell) : Prop where
  tombstone : d.tombstone = c.tombstone
  row : c.row.isSome → d.row.isSome
  revLE : RevLE c d
  ordered : c.Ordered → d.Ordered

theorem Upserts.refl (c : Cell) : Upserts c c := ⟨rfl, id, .refl c, id⟩

theorem Upserts.trans {e : Cell} (h : Upserts c d) (k : Upserts d e) : Upserts c e where
  tombstone := k.tombstone.trans h.tombstone
  row := k.row ∘ h.row
  revLE row hr := h.revLE.trans k.revLE (h.row (Option.isSome_of_mem hr)) row hr
  ordered := k.ordered ∘ h.ordered

theorem upserts_upsert {kind : WriteKind} {rec : PreparedRecord} (now : Int)
    (admitted : kind = .network → c.blocks rec.rev = false) :
    Upserts c (c.upsert kind (rec.row kind now)) :=
  ⟨rfl, fun _ => rfl, .upsert c kind _, fun ordered => ordered.upsert now admitted⟩

theorem Ordered.of_row_eq_none (empty : c.row = none) : c.Ordered := by
  simp [Ordered, empty]

/-! ## Deletes -/

theorem TombstoneLE.bury (c : Cell) (rev : String) : TombstoneLE c (c.bury rev) := by
  intro t ht
  have held : c.tombstone = some t := ht
  exact ⟨max t rev, by simp [Cell.bury, held], le_max_left t rev⟩

/-- What a delete may do: remove the row and move the tombstone forward, or nothing but
the latter where there is no row. -/
structure Deletes (c d : Cell) : Prop where
  tombstone : TombstoneLE c d
  row : d = c ∨ d.row = none

theorem Deletes.bury (c : Cell) (rev : String) : Deletes c ({ c with row := none }.bury rev) :=
  ⟨TombstoneLE.bury c rev, .inr rfl⟩

theorem deletes_deleteUnordered (c : Cell) : Deletes c c.deleteUnordered := by
  rw [deleteUnordered]
  cases c.row with
  | none => exact ⟨.refl c, .inl rfl⟩
  | some row =>
    dsimp only
    cases row.rev with
    | none => exact ⟨.refl c, .inr rfl⟩
    | some rev => exact .bury c rev

theorem deletes_delete (c : Cell) (mayFollow : Bool) (rev : Option String) :
    Deletes c (c.delete mayFollow rev) := by
  cases rev with
  | none => exact c.deletes_deleteUnordered
  | some rev =>
    rw [delete, deleteOrdered]
    cases row : c.row with
    | none =>
      cases mayFollow with
      | false => exact ⟨.refl c, .inl rfl⟩
      | true => exact ⟨.bury c rev, .inr row⟩
    | some row =>
      dsimp only
      split
      · exact .bury c rev
      · exact ⟨.refl c, .inl rfl⟩

theorem Deletes.ordered (h : Deletes c d) (ordered : c.Ordered) : d.Ordered := by
  rcases h.row with rfl | empty
  · exact ordered
  · exact .of_row_eq_none empty

theorem Deletes.revLE (h : Deletes c d) : RevLE c d := by
  rcases h.row with rfl | empty
  · exact .refl d
  · intro row _ row' hr'
    rw [empty] at hr'
    cases hr'

/-! ## Calls -/

structure Step (c d : Cell) : Prop where
  ordered : c.Ordered → d.Ordered
  tombstone : TombstoneLE c d
  revLE : RevLE c d

theorem Step.refl (c : Cell) : Step c c := ⟨id, .refl c, .refl c⟩

theorem Upserts.step (h : Upserts c d) : Step c d :=
  ⟨h.ordered, fun t ht => ⟨t, h.tombstone ▸ ht, le_refl t⟩, h.revLE⟩

theorem Deletes.step (h : Deletes c d) : Step c d := ⟨h.ordered, h.tombstone, h.revLE⟩

end Cell

namespace Store

variable {s : Store} {kind : WriteKind} {records : List PreparedRecord}

theorem upsertRow_upserts {rec : PreparedRecord} (now : Int)
    (admitted : kind = .network → (s.cell rec.key).blocks rec.rev = false) (key : RecordKey) :
    (s.cell key).Upserts ((s.upsertRow kind now rec).1.cell key) := by
  by_cases here : key = rec.key
  · subst here
    rw [upsertRow_cell]
    exact Cell.upserts_upsert now admitted
  · rw [upsertRow_cell_of_ne kind now here]
    exact .refl _

theorem upsertRows_upserts (now : Int)
    (admitted : kind = .network → ∀ rec ∈ records, (s.cell rec.key).blocks rec.rev = false)
    (key : RecordKey) : (s.cell key).Upserts ((s.upsertRows kind now records).1.cell key) := by
  induction records generalizing s with
  | nil => exact .refl _
  | cons rec rest ih =>
    have first : ∀ key, (s.cell key).Upserts ((s.upsertRow kind now rec).1.cell key) :=
      upsertRow_upserts now fun net => admitted net rec (by simp)
    refine (first key).trans (ih fun net other mem => ?_)
    -- The tombstones are those the whole batch was checked against.
    simpa [Cell.blocks, (first other.key).tombstone] using admitted net other (by simp [mem])

theorem not_blocks_of_notMem {rec : PreparedRecord} (mem : rec ∈ records)
    (passed : rec.key.uri ∉ s.blockedWrites records) : (s.cell rec.key).blocks rec.rev = false := by
  by_contra blocked
  refine passed (List.mem_map.mpr ⟨rec, List.mem_filter.mpr ⟨mem, ?_⟩, rfl⟩)
  simp_all [Cell.blocks, cell, Option.any_map]

theorem upsertBatch_upserts (s : Store) (kind : WriteKind) (now : Int)
    (records : List PreparedRecord)
    (key : RecordKey) : (s.cell key).Upserts ((s.upsertBatch kind now records).1.cell key) := by
  cases kind with
  | network =>
    refine upsertRows_upserts now (fun _ rec mem => ?_) key
    obtain ⟨mem, passed⟩ := List.mem_filter.mp mem
    exact not_blocks_of_notMem mem (by simpa using passed)
  | echoed | indexOnly => exact upsertRows_upserts now (by simp) key

theorem deleteNetwork_step {key : RecordKey} (wf : key.WellFormed) (rev : Option String)
    (now : String) (backfillRunning : Bool) (other : RecordKey) :
    (s.cell other).Step
      ((s.deleteNetwork key.uri key.did key.collection rev now backfillRunning).cell other) := by
  by_cases here : other = key
  · subst here
    rw [deleteNetwork_cell wf]
    exact (Cell.deletes_delete _ _ _).step
  · rw [deleteNetwork_cell_of_ne wf here]
    exact .refl _

theorem deleteNetworkIfBody_step {V : Type} [DecidableEq V] (parse : String → Option V)
    {key : RecordKey} (wf : key.WellFormed) (expected : V) (now : String) (other : RecordKey) :
    (s.cell other).Step
      ((s.deleteNetworkIfBody parse key.uri key.did key.collection expected now).1.cell other) := by
  rw [deleteNetworkIfBody, wf.parse]
  dsimp only
  split
  · by_cases here : other = key
    · subst here
      rw [deleteUnordered_cell]
      exact (Cell.deletes_deleteUnordered _).step
    · rw [deleteUnordered_cell_of_ne here fun same => here (wf.uri_inj same)]
      exact .refl _
  · exact .refl _

end Store

inductive Call (V : Type) where
  | writeNetwork (now : Int) (records : List PreparedRecord)
  | writeLocal (kind : WriteKind) (now : Int) (rec : PreparedRecord)
  | deleteNetwork (uri did collection : String) (rev : Option String) (now : String)
      (backfillRunning : Bool)
  | deleteNetworkIfBody (uri did collection : String) (expected : V) (now : String)

/-- A delete is given the DID and the collection of a record together with its URI, and the URI
parses. -/
def Call.Addressed {V : Type} : Call V → Prop
  | .deleteNetwork uri did collection .. | .deleteNetworkIfBody uri did collection .. =>
    ∃ key : RecordKey, key.WellFormed ∧ uri = key.uri ∧ did = key.did ∧
      collection = key.collection
  | .writeNetwork .. | .writeLocal .. => True

section Runs

variable {V : Type} [DecidableEq V] (claims : String → Bool) (parse : String → Option V)

def Store.call (s : Store) : Call V → Store
  | .writeNetwork now records => (s.writeNetwork now records).1
  | .writeLocal kind now rec => (s.writeLocal claims kind now rec).toOption.getD s
  | .deleteNetwork uri did collection rev now backfillRunning =>
    s.deleteNetwork uri did collection rev now backfillRunning
  | .deleteNetworkIfBody uri did collection expected now =>
    (s.deleteNetworkIfBody parse uri did collection expected now).1

def Store.run (calls : List (Call V)) : Store := calls.foldl (Store.call claims parse) {}

theorem Store.writeLocal_step (s : Store) (kind : WriteKind) (now : Int) (rec : PreparedRecord)
    (key : RecordKey) :
    (s.cell key).Step (((s.writeLocal claims kind now rec).toOption.getD s).cell key) := by
  unfold writeLocal
  split
  · exact .refl _
  · rename_i local_kind
    split
    · exact .refl _
    · exact (upsertRows_upserts now (fun net => absurd net local_kind) key).step

theorem Store.call_step (s : Store) {call : Call V} (addressed : call.Addressed)
    (key : RecordKey) :
    (s.cell key).Step ((s.call claims parse call).cell key) := by
  cases call with
  | writeNetwork now records => exact (s.upsertBatch_upserts .network now records key).step
  | writeLocal kind now rec => exact s.writeLocal_step claims kind now rec key
  | deleteNetwork uri did collection rev now backfillRunning =>
    obtain ⟨target, wf, rfl, rfl, rfl⟩ := addressed
    exact deleteNetwork_step wf rev now backfillRunning key
  | deleteNetworkIfBody uri did collection expected now =>
    obtain ⟨target, wf, rfl, rfl, rfl⟩ := addressed
    exact deleteNetworkIfBody_step parse wf expected now key

variable {claims parse}

theorem Store.run_concat (calls : List (Call V)) (call : Call V) :
    Store.run claims parse (calls ++ [call]) =
      (Store.run claims parse calls).call claims parse call := by
  simp [Store.run]

theorem Store.run_ordered {calls : List (Call V)} (addressed : ∀ call ∈ calls, call.Addressed)
    (key : RecordKey) : ((Store.run claims parse calls).cell key).Ordered := by
  induction calls using List.reverseRecOn with
  | nil => exact .of_row_eq_none rfl
  | append_singleton calls call ih =>
    simp only [List.forall_mem_append, List.forall_mem_singleton] at addressed
    rw [run_concat]
    exact ((Store.run claims parse calls).call_step claims parse addressed.2 key).ordered
      (ih addressed.1)

theorem Store.run_tombstoneLE (calls : List (Call V)) {more : List (Call V)}
    (addressed : ∀ call ∈ more, call.Addressed) (key : RecordKey) :
    ((Store.run claims parse calls).cell key).TombstoneLE
      ((Store.run claims parse (calls ++ more)).cell key) := by
  induction more using List.reverseRecOn with
  | nil => simpa using .refl _
  | append_singleton more call ih =>
    simp only [List.forall_mem_append, List.forall_mem_singleton] at addressed
    rw [← List.append_assoc, run_concat]
    exact (ih addressed.1).trans
      ((Store.run claims parse (calls ++ more)).call_step claims parse addressed.2 key).tombstone

theorem Store.run_revLE (calls : List (Call V)) {more : List (Call V)}
    (addressed : ∀ call ∈ more, call.Addressed) (key : RecordKey)
    (stays : ∀ part, part <+: more →
      ((Store.run claims parse (calls ++ part)).records.lookup key).isSome) :
    ((Store.run claims parse calls).cell key).RevLE
      ((Store.run claims parse (calls ++ more)).cell key) := by
  induction more using List.reverseRecOn with
  | nil => simpa using .refl _
  | append_singleton more call ih =>
    simp only [List.forall_mem_append, List.forall_mem_singleton] at addressed
    have sofar := ih addressed.1 fun part h =>
      stays part (h.trans (List.prefix_append more [call]))
    rw [← List.append_assoc, run_concat]
    exact sofar.trans
      ((Store.run claims parse (calls ++ more)).call_step claims parse addressed.2 key).revLE
      (stays more (List.prefix_append more [call]))

variable (claims parse)

/-- After any calls on empty tables, the deletes of which are addressed to records: a row with a
rev is newer than the tombstone of its URI; whatever is called next in that way, the tombstone
stays at that rev or a newer one; and a row that stays in place does not lose its rev or go back
to an older one. -/
theorem no_resurrection (calls : List (Call V)) (addressed : ∀ call ∈ calls, call.Addressed)
    (key : RecordKey) :
    let s := Store.run claims parse calls
    (∀ t row v, s.recordTombstones.lookup key.uri = some t → s.records.lookup key = some row →
      row.rev = some v → t.rev < v) ∧
    (∀ more t, (∀ call ∈ more, call.Addressed) → s.recordTombstones.lookup key.uri = some t →
      ∃ t', (Store.run claims parse (calls ++ more)).recordTombstones.lookup key.uri = some t' ∧
        t.rev ≤ t'.rev) ∧
    (∀ more row row' v, (∀ call ∈ more, call.Addressed) →
      (∀ part, part <+: more →
        ((Store.run claims parse (calls ++ part)).records.lookup key).isSome) →
      s.records.lookup key = some row → row.rev = some v →
      (Store.run claims parse (calls ++ more)).records.lookup key = some row' →
      ∃ v', row'.rev = some v' ∧ v ≤ v') := by
  refine ⟨fun t row v ht hr hv => ?_, fun more t further ht => ?_,
    fun more row row' v further stays hr hv hr' => ?_⟩
  · exact Store.run_ordered addressed key t.rev (by simp [Store.cell, ht]) row hr v hv
  · obtain ⟨rev, hrev, le⟩ :
        ∃ rev ∈ ((Store.run claims parse (calls ++ more)).cell key).tombstone, t.rev ≤ rev :=
      Store.run_tombstoneLE calls further key t.rev (by simp [Store.cell, ht])
    obtain ⟨t', ht', rfl⟩ := Option.map_eq_some_iff.mp hrev
    exact ⟨t', ht', le⟩
  · exact Store.run_revLE calls further key stays row hr row' hr' v hv

end Runs

def rewriteCalls : List (Call String) :=
  let key : RecordKey := ⟨"did:plc:a", "app.note", "1"⟩
  [.writeNetwork 1 [⟨key, "x", "c1", some "20"⟩],
    .deleteNetwork key.uri key.did key.collection (some "25") "now" false,
    .writeNetwork 2 [⟨key, "x", "c1", some "22"⟩, ⟨key, "y", "c2", some "30"⟩]]

/-- The new row is past the tombstone. -/
theorem no_resurrection_rewritten :
    let key : RecordKey := ⟨"did:plc:a", "app.note", "1"⟩
    let s := Store.run (fun _ => false) (fun text => some text) rewriteCalls
    (s.recordTombstones.lookup key.uri).map (·.rev) = some "25" ∧
      (s.records.lookup key).map (·.rev) = some (some "30") ∧ "25" < "30" := by
  refine ⟨by decide +kernel, by decide +kernel, ?_⟩
  have addressed : ∀ call ∈ rewriteCalls, call.Addressed := by
    simp only [rewriteCalls, List.forall_mem_cons, Call.Addressed, true_and]
    exact ⟨⟨⟨"did:plc:a", "app.note", "1"⟩, by decide +kernel, rfl, rfl, rfl⟩, by simp⟩
  have ⟨ordered, _⟩ := no_resurrection (fun _ => false) (fun text => some text) rewriteCalls
    addressed ⟨"did:plc:a", "app.note", "1"⟩
  exact ordered ⟨"25", "now"⟩ ⟨"y", "c2", some "30", some 2, 2⟩ "30" (by decide +kernel)
    (by decide +kernel) rfl

theorem slash_resurrected :
    let key : RecordKey := ⟨"did:plc:a", "app.note", "a/b"⟩
    let s := Store.run (fun _ => false) (fun text => some text)
      [.writeNetwork 1 [⟨key, "x", "c1", some "20"⟩],
        .deleteNetwork key.uri key.did key.collection (some "25") "now" true]
    (s.recordTombstones.lookup key.uri).map (·.rev) = some "25" ∧
      (s.records.lookup key).map (·.rev) = some (some "20") ∧ ¬ "25" < "20" := by
  decide +kernel

end HappyView.Records
