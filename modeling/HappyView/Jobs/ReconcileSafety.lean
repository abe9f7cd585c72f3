import HappyView.Foundation.PercentEncoding
import HappyView.Jobs.Reconcile
import HappyView.Records.Cell
import Mathlib.Data.Finset.Card

/-!
# Reconciling deletes only confirmed losses

A row is removed only on evidence, which the transcript holds up to the removal: the row as it
was read, after it the account's PDS and a complete listing there that omits it and is not
suspicious, after that the PDS's answer that this record does not exist, and a hook that lets the
delete through. `History` is a run of the store in which each answer is the one that the script
has next for the question, and the job does nothing but such removals.
-/

namespace HappyView.Jobs.Reconcile

open HappyView.Foundation HappyView.Records

/-! ## Evidence -/

/-- Answers that are a whole listing, with the records they list: the first to the request at
`cursor`, each further one at the cursor before it, all with success, the last one alone without
a cursor, none that goes on empty or with a cursor it already gave. -/
inductive Complete (texts : Texts) (request : Option String → String) :
    Option String → List String → List Event → List ListedRecord → Prop where
  | last {cursor : Option String} {seen : List String} {status : Nat} {body : String}
      {page : ListRecordsPage} (success : isSuccess status = true)
      (parsed : texts.page body = .ok page) (ends : page.cursor = none) :
      Complete texts request cursor seen [.answer (request cursor) status body] page.records
  | more {cursor : Option String} {seen : List String} {status : Nat} {body next : String}
      {page : ListRecordsPage} {answers : List Event} {records : List ListedRecord}
      (success : isSuccess status = true) (parsed : texts.page body = .ok page)
      (goesOn : page.cursor = some next) (lists : page.records ≠ []) (new : next ∉ seen)
      (rest : Complete texts request (some next) (next :: seen) answers records) :
      Complete texts request cursor seen (.answer (request cursor) status body :: answers)
        (page.records ++ records)

def listedKeys (records : List ListedRecord) : List String :=
  records.filterMap fun record => lastSegment record.uri

/-- Nothing is listed, or at least ten and more than half of the stored rows are not. -/
def Suspicious (stored : List StoredKey) (listed : List String) : Prop :=
  listed = [] ∨
    (10 ≤ (stored.filter fun found => found.rkey ∉ listed).length ∧
      stored.length < (stored.filter fun found => found.rkey ∉ listed).length * 2)

def LetsThrough : Except String HookOutcome → Prop
  | .ok .proceed | .ok (.replace _) => True
  | .ok .skip | .error _ => False

def Event.IsRead (event : Event) : Prop := ∃ did stored, event = .read did stored

/-- An account was checked: its rows were read, then its PDS was found, and then the whole
listing there, which may be acted on. -/
structure Checked (texts : Texts) (options : Options) (did pds : String) (stored : List StoredKey)
    (records : List ListedRecord) (heard : List Event) : Prop where
  order : ∃ before answers between, heard =
      before ++ .read did stored :: .resolved did pds :: (answers ++ between) ∧
    Complete texts (listUrl texts pds did options.collection) none [] answers records ∧
    ∀ event ∈ between, ¬ event.IsRead
  trusted : ¬ Suspicious stored (listedKeys records) ∨ did ∈ options.allowSuspicious

/-- Why a row may be removed, by what was heard before. -/
structure Evidence (texts : Texts) (options : Options) (heard : List Event) (key : RecordKey)
    (row : Option Row) : Prop where
  apply : options.dryRun = false
  collection : key.collection = options.collection
  heard : ∃ pds stored records checked status body outcome,
    heard = checked ++
      [.answer (getRecordUrl texts pds key.did key.collection key.rkey) status body,
        .hook key.uri outcome] ∧
    Checked texts options key.did pds stored records checked ∧
    key.rkey ∉ listedKeys records ∧
    getrecordAnswer texts status body = .missing ∧
    LetsThrough outcome ∧
    ∃ held, row = some held ∧ ⟨key.rkey, some held.cid, held.rev⟩ ∈ stored

/-- The reply gives this answer to the question of the event. -/
def Reply.Gives (reply : Reply) : Event → Prop
  | .resolved did pds => reply.pds did = .ok pds
  | .answer url status body => reply.response url = .ok ⟨status, .ok body⟩
  | .hook uri outcome => reply.hook uri = outcome
  | .read .. | .removed .. => False

/-- How a transcript and a store come about from `start`, and what is left of the script: other
writers write and the job hears what the next reply gives, it reads, and it removes rows on
evidence. -/
inductive History (texts : Texts) (options : Options) (start : Store) (script : List Reply) :
    List Event → Store → List Reply → Prop where
  | start : History texts options start script [] start script
  | asked {heard : List Event} {s : Store} {reply : Reply} {rest : List Reply}
      {event : Option Event} (gives : ∀ e ∈ event, reply.Gives e)
      (history : History texts options start script heard s (reply :: rest)) :
      History texts options start script (heard ++ event.toList) (reply.ingest s) rest
  | read {heard : List Event} {s : Store} {rest : List Reply} (did : String)
      (history : History texts options start script heard s rest) :
      History texts options start script
        (heard ++ [.read did (networkKeysOf s did options.collection)]) s rest
  | removed {heard : List Event} {s s' : Store} {rest : List Reply} {key : RecordKey}
      {cid rev : Option String} {now : String}
      (evidence : Evidence texts options heard key (s.records.lookup key))
      (unchanged :
        s.deleteNetworkIfUnchanged key.uri key.did key.collection cid rev now = (s', true))
      (history : History texts options start script heard s rest) :
      History texts options start script (heard ++ [.removed key (s.records.lookup key)]) s' rest

def writtenBy (replies : List Reply) (s : Store) : Store :=
  replies.foldl (fun s reply => reply.ingest s) s

section Safety

variable {texts : Texts} {options : Options} {jobId : Option String} {start s : Store}
  {script : List Reply} {w w' : World}

theorem History.dryRun {heard : List Event} {rest : List Reply} (dry : options.dryRun = true)
    (history : History texts options start script heard s rest) :
    ∃ replies, script = replies ++ rest ∧ s = writtenBy replies start := by
  induction history with
  | start => exact ⟨[], rfl, rfl⟩
  | @asked _ _ reply rest _ _ _ ih =>
    obtain ⟨replies, known, rfl⟩ := ih
    exact ⟨replies ++ [reply], by simp [known], by simp [writtenBy]⟩
  | read _ _ ih => exact ih
  | removed evidence _ _ _ =>
    rw [evidence.apply] at dry
    cases dry

/-! ## Moves of a run -/

/-- The world stays the end of a history, and what is left of its script is of the script. -/
structure Keeps (texts : Texts) (options : Options) (w w' : World) : Prop where
  history : ∀ start script, History texts options start script w.transcript w.store w.script →
    History texts options start script w'.transcript w'.store w'.script
  script : ∀ reply ∈ w'.script, reply ∈ w.script

theorem keeps_chains : Chains (Keeps texts options) (Keeps texts options) where
  refl _ := ⟨fun _ _ => id, fun _ h => h⟩
  trans _ _ _ h k := ⟨fun s r history => k.history s r (h.history s r history),
    fun r mem => h.script r (k.script r mem)⟩
  stop _ _ _ h k := ⟨fun s r history => k.history s r (h.history s r history),
    fun r mem => h.script r (k.script r mem)⟩

/-- The procedure keeps the history, wherever it stops, and returns with `post`. -/
abbrev Runs (texts : Texts) (options : Options) {α : Type} (x : JobM α)
    (post : α → World → Prop) (w : World) : Prop :=
  Steps (Keeps texts options) (Keeps texts options) x post w

theorem hear_keeps {event : Reply → Option Event}
    (gives : ∀ reply, ∀ e ∈ event reply, reply.Gives e) :
    Runs texts options (hear event) (fun reply w' =>
      w'.transcript = w.transcript ++ (event reply).toList ∧ reply ∈ w.script) w := by
  refine wp_bind.mpr (wp_get.mpr ?_)
  cases asked : w.script with
  | nil => exact keeps_chains.refl w
  | cons reply rest =>
    refine ⟨⟨fun _ _ history => ?_, fun r mem => ?_⟩, rfl, List.mem_cons_self⟩
    · rw [asked] at history
      exact history.asked (gives reply)
    · rw [asked]
      exact List.mem_cons_of_mem _ mem

theorem ask_keeps : Runs texts options ask
    (fun reply w' => w'.transcript = w.transcript ∧ reply ∈ w.script) w :=
  steps_mono (hear_keeps nofun) fun _ _ _ heard => ⟨by simpa using heard.1, heard.2⟩

theorem updateReport_keeps (f : Report → Report) :
    Runs texts options (updateReport f)
      (fun _ w' => w'.transcript = w.transcript) w :=
  ⟨⟨fun _ _ => id, fun _ h => h⟩, rfl⟩

theorem shouldStop_keeps : Runs texts options (shouldStop jobId)
    (fun _ w' => w'.transcript = w.transcript) w := by
  cases jobId with
  | none => exact steps_pure keeps_chains rfl
  | some id =>
    exact steps_bind keeps_chains ask_keeps fun _ _ _ same => steps_pure keeps_chains same.1

theorem stopAsked_keeps : Runs texts options (stopAsked jobId)
    (fun _ w' => w'.transcript = w.transcript) w := by
  refine steps_bind keeps_chains shouldStop_keeps fun reason w₁ _ same => ?_
  cases reason with
  | none => exact steps_pure keeps_chains same
  | some reason =>
    exact steps_bind keeps_chains (updateReport_keeps _) fun _ _ _ same' =>
      steps_pure keeps_chains (same'.trans same)

theorem getUrl_keeps (url : String) :
    Runs texts options (getUrl url) (fun answer w' =>
      (∀ e, answer = .error e → w'.transcript = w.transcript) ∧
      ∀ status body, answer = .ok (status, body) →
        w'.transcript = w.transcript ++ [.answer url status body] ∧
        ∃ reply ∈ w.script, reply.response url = .ok ⟨status, .ok body⟩) w := by
  unfold getUrl
  generalize rateLimitTries = left, 0 = tries
  induction left generalizing tries w with
  | zero => exact steps_pure keeps_chains ⟨fun _ _ => rfl, nofun⟩
  | succ left ih =>
    have gives (reply : Reply) (e : Event) (noted : e ∈ responseEvent url reply) :
        reply.Gives e := by
      unfold responseEvent at noted
      split at noted
      · rename_i status body answered
        split at noted
        · cases noted
        · cases noted
          exact answered
      · cases noted
    refine steps_bind keeps_chains (hear_keeps gives) fun reply w₁ moved heard => ?_
    obtain ⟨noted, asked⟩ := heard
    unfold responseEvent at noted
    split
    · rename_i answered
      rw [answered] at noted
      exact steps_pure keeps_chains ⟨fun _ _ => by simpa using noted, nofun⟩
    · rename_i response answered
      obtain ⟨status, body⟩ := response
      rw [answered] at noted
      split
      · rename_i limited
        dsimp only at limited
        have same : w₁.transcript = w.transcript := by
          cases body <;> simpa [limited] using noted
        refine steps_mono (ih (tries + 1)) fun answer _ _ known => ?_
        rw [same] at known
        refine ⟨known.1, fun status body ok => ?_⟩
        obtain ⟨noted, reply, mem, rest⟩ := known.2 status body ok
        exact ⟨noted, reply, moved.script reply mem, rest⟩
      · rename_i unlimited
        dsimp only at unlimited
        split
        · rename_i unread
          dsimp only at unread
          rw [unread] at noted
          exact steps_pure keeps_chains ⟨fun _ _ => by simpa using noted, nofun⟩
        · rename_i text read
          dsimp only at read
          rw [read] at noted answered
          refine steps_pure keeps_chains ⟨nofun, fun found body ok => ?_⟩
          cases ok
          exact ⟨by simpa [unlimited] using noted, reply, asked, answered⟩

theorem noteRead_keeps (did : String) :
    Runs texts options (note (.read did (networkKeysOf w.store did options.collection)))
      (fun _ w' => w'.transcript =
        w.transcript ++ [.read did (networkKeysOf w.store did options.collection)]) w :=
  ⟨⟨fun _ _ history => history.read did, fun _ h => h⟩, rfl⟩

/-! ## The listing -/

theorem lookup_addListed (listing : Listing) (record : ListedRecord) (rkey : String) :
    ((addListed listing record).lookup rkey).isSome = true ↔
      (listing.lookup rkey).isSome = true ∨ lastSegment record.uri = some rkey := by
  unfold addListed
  split
  · rename_i listed segment
    by_cases same : rkey = listed
    · subst same
      simp [segment]
    · rw [AList.lookup_insert_ne same, segment]
      simp [Ne.symm same]
  · rename_i segment
    simp [segment]

theorem lookup_foldl_addListed (records : List ListedRecord) (listing : Listing) (rkey : String) :
    ((records.foldl addListed listing).lookup rkey).isSome = true ↔
      (listing.lookup rkey).isSome = true ∨
        rkey ∈ records.filterMap fun record => lastSegment record.uri := by
  induction records generalizing listing with
  | nil => simp
  | cons record records ih =>
    rw [List.foldl_cons, ih, lookup_addListed, List.mem_filterMap, List.mem_filterMap]
    simp only [List.mem_cons, exists_eq_or_imp, or_assoc]

def Offers (texts : Texts) (script : List Reply) (next : String) : Prop :=
  ∃ reply ∈ script, ∃ url status body page, reply.response url = .ok ⟨status, .ok body⟩ ∧
    texts.page body = .ok page ∧ page.cursor = some next

/-- A listing is the pages that were heard, and they are all of them. One that uses up its fuel
was given a new cursor for each unit of it. -/
theorem listFrom_keeps (pds did collection : String) (fuel : Nat) (cursor : Option String)
    (seen : List String) (listing : Listing) :
    Runs texts options (listFrom texts jobId pds did collection fuel cursor seen listing)
      (fun result w' =>
        (∀ found, result = some (.ok found) → ∃ answers records,
          w'.transcript = w.transcript ++ answers ∧
          Complete texts (listUrl texts pds did collection) cursor seen answers records ∧
          ∀ rkey, (found.lookup rkey).isSome = true ↔
            (listing.lookup rkey).isSome = true ∨ rkey ∈ listedKeys records) ∧
        (result = none → ∃ given : List String, given.length = fuel ∧ given.Nodup ∧
          ∀ next ∈ given, next ∉ seen ∧ Offers texts w.script next)) w := by
  induction fuel generalizing cursor seen listing w with
  | zero => exact steps_pure keeps_chains ⟨nofun, fun _ => ⟨[], rfl, .nil, by simp⟩⟩
  | succ fuel ih =>
    refine steps_bind keeps_chains shouldStop_keeps fun reason w₁ moved₁ same => ?_
    cases reason with
    | some reason => exact steps_pure keeps_chains ⟨nofun, nofun⟩
    | none =>
      refine steps_bind keeps_chains (getUrl_keeps _) fun answer w₂ moved₂ asked => ?_
      cases answer with
      | error e => exact steps_pure keeps_chains ⟨nofun, nofun⟩
      | ok answer =>
        obtain ⟨status, body⟩ := answer
        obtain ⟨noted, reply, asked, answered⟩ := asked.2 status body rfl
        rw [same] at noted
        dsimp only
        split
        · exact steps_pure keeps_chains ⟨nofun, nofun⟩
        rename_i success
        rw [Bool.not_eq_true', Bool.not_eq_false] at success
        cases parsed : texts.page body with
        | error e => exact steps_pure keeps_chains ⟨nofun, nofun⟩
        | ok page =>
          dsimp only
          split
          · rename_i ends
            refine steps_pure keeps_chains ⟨fun found ok => ?_, nofun⟩
            cases ok
            exact ⟨_, page.records, noted, .last success parsed ends,
              lookup_foldl_addListed page.records listing⟩
          · rename_i next goesOn
            split
            · exact steps_pure keeps_chains ⟨nofun, nofun⟩
            rename_i lists
            split
            · exact steps_pure keeps_chains ⟨nofun, nofun⟩
            rename_i new
            refine steps_mono (ih (some next) (next :: seen) _) fun result w₄ _ done => ⟨?_, ?_⟩
            · intro found ok
              obtain ⟨answers, records, heard, complete, listed⟩ := done.1 found ok
              refine ⟨_, page.records ++ records, ?_,
                .more success parsed goesOn (by simpa using lists) new complete, fun rkey => ?_⟩
              · rw [heard, noted, List.append_assoc, List.singleton_append]
              · rw [listed, lookup_foldl_addListed, listedKeys, listedKeys, List.filterMap_append,
                  List.mem_append, or_assoc]
            · intro out
              obtain ⟨given, length, distinct, offered⟩ := done.2 out
              have earlier (reply : Reply) (mem : reply ∈ w₂.script) : reply ∈ w.script :=
                moved₁.script _ (moved₂.script _ mem)
              refine ⟨next :: given, by simp [length],
                List.nodup_cons.mpr ⟨fun mem => ?_, distinct⟩,
                List.forall_mem_cons.mpr ⟨⟨new, ?_⟩, fun other mem => ?_⟩⟩
              · exact (offered next mem).1 List.mem_cons_self
              · exact ⟨reply, moved₁.script _ asked, _, status, body, page, answered, parsed,
                  goesOn⟩
              · obtain ⟨unseen, reply, mem, source⟩ := offered other mem
                exact ⟨fun h => unseen (List.mem_cons_of_mem _ h), reply, earlier reply mem, source⟩

theorem listRecords_ends (pds did collection : String) {cursors : Finset String} {fuel : Nat}
    (finite : ∀ next, Offers texts w.script next → next ∈ cursors) (enough : cursors.card < fuel) :
    ((listRecords texts jobId fuel pds did collection).run w).1 ≠ .ok none := by
  intro out
  have listing : Steps (Keeps texts { collection }) _
      (listRecords texts jobId fuel pds did collection) _ w :=
    listFrom_keeps pds did collection fuel none [] ∅
  obtain ⟨given, length, distinct, offered⟩ := (wp_returns listing out).2.2 rfl
  have fits : given.length ≤ cursors.card := by
    rw [← List.toFinset_card_of_nodup distinct]
    exact Finset.card_le_card fun next mem =>
      finite next (offered next (List.mem_toFinset.mp mem)).2
  omega

/-! ## One record -/

theorem deleteNetworkIfUnchanged_row {s s' : Store} {key : RecordKey} {cid rev : Option String}
    {now : String}
    (h : s.deleteNetworkIfUnchanged key.uri key.did key.collection cid rev now = (s', true)) :
    ∃ row, s.records.lookup key = some row ∧ cid = some row.cid ∧ rev = row.rev := by
  unfold Store.deleteNetworkIfUnchanged at h
  split at h
  · cases h
  · rename_i did collection rkey parsed
    obtain rfl := RecordKey.of_parseRecordUri parsed
    dsimp only at h
    split at h
    · cases h
    · rename_i row found
      split at h
      · cases h
      · rename_i same
        rw [not_or, not_not, not_not] at same
        exact ⟨row, (Option.filter_eq_some_iff.mp found).1, same.1.symm, same.2.symm⟩

theorem Checked.append {did pds : String} {stored : List StoredKey} {records : List ListedRecord}
    {heard more : List Event} (checked : Checked texts options did pds stored records heard)
    (noRead : ∀ event ∈ more, ¬ event.IsRead) :
    Checked texts options did pds stored records (heard ++ more) := by
  obtain ⟨before, answers, between, rfl, complete, quiet⟩ := checked.order
  refine ⟨⟨before, answers, between ++ more, by simp, complete, fun event mem => ?_⟩,
    checked.trusted⟩
  rcases List.mem_append.mp mem with old | new
  · exact quiet event old
  · exact noRead event new

structure Confirmation (texts : Texts) (options : Options) (did : String) (found : StoredKey)
    (stored : List StoredKey) (heard : List Event) : Prop where
  apply : options.dryRun = false
  mem : found ∈ stored
  answer : ∃ pds records checked status body,
    heard = checked ++ [.answer (getRecordUrl texts pds did options.collection found.rkey) status
      body] ∧
    Checked texts options did pds stored records checked ∧
    found.rkey ∉ listedKeys records ∧ getrecordAnswer texts status body = .missing

def Follows (w w' : World) : Prop :=
  ∃ more, w'.transcript = w.transcript ++ more ∧ ∀ event ∈ more, ¬ event.IsRead

theorem Follows.refl {w w' : World} (same : w'.transcript = w.transcript) : Follows w w' :=
  ⟨[], by simpa using same, by simp⟩

theorem Follows.trans {w w' w'' : World} (h : Follows w w') (k : Follows w' w'') :
    Follows w w'' := by
  obtain ⟨more, heard, quiet⟩ := h
  obtain ⟨further, heard', quiet'⟩ := k
  refine ⟨more ++ further, by rw [heard', heard, List.append_assoc], fun event mem => ?_⟩
  rcases List.mem_append.mp mem with old | new
  · exact quiet event old
  · exact quiet' event new

theorem Follows.concat {w w' w'' : World} (follows : Follows w w') {event : Event}
    (noted : w''.transcript = w'.transcript ++ [event]) (other : ¬ event.IsRead) :
    Follows w w'' :=
  follows.trans ⟨[event], noted, fun _ mem => List.mem_singleton.mp mem ▸ other⟩

theorem removeRow_keeps {key : RecordKey} {found : StoredKey}
    (evidence : ∀ held : Row, found.cid = some held.cid → found.rev = held.rev →
      Evidence texts options w.transcript key (some held)) :
    Runs texts options (removeRow key found)
      (fun _ => Follows w) w := by
  refine steps_bind keeps_chains ask_keeps fun reply w₁ _ same => ?_
  split
  · exact steps_pure keeps_chains (.refl same.1)
  refine wp_bind.mpr (wp_get.mpr ?_)
  dsimp only
  split
  · rename_i s' unchanged
    obtain ⟨held, stored, cid, rev⟩ := deleteNetworkIfUnchanged_row unchanged
    have justified : Evidence texts options w₁.transcript key (w₁.store.records.lookup key) := by
      rw [stored, same.1]
      exact evidence held cid rev
    exact ⟨⟨fun _ _ history => history.removed justified unchanged, fun _ h => h⟩,
      Follows.concat (.refl same.1) rfl nofun⟩
  · exact steps_pure keeps_chains (.refl same.1)

theorem delete_keeps {did : String} {found : StoredKey} {stored : List StoredKey}
    (confirmed : Confirmation texts options did found stored w.transcript) :
    Runs texts options (delete did options.collection found)
      (fun _ => Follows w) w := by
  refine steps_bind keeps_chains ask_keeps fun reply w₁ _ same => ?_
  split
  · exact steps_pure keeps_chains (.refl same.1)
  refine wp_bind.mpr (wp_get.mpr ?_)
  split
  · exact steps_pure keeps_chains (.refl same.1)
  split
  · exact steps_pure keeps_chains (.refl same.1)
  let uri := RecordKey.uri ⟨did, options.collection, found.rkey⟩
  have gives (reply : Reply) (e : Event) (noted : e ∈ some (Event.hook uri (reply.hook uri))) :
      reply.Gives e := by
    cases noted
    rfl
  refine steps_bind keeps_chains (hear_keeps gives) fun reply₂ w₂ _ heard => ?_
  have noted := heard.1
  rw [same.1, Option.toList_some] at noted
  have follows : Follows w w₂ := Follows.concat (.refl rfl) noted nofun
  have evidence (lets : LetsThrough (reply₂.hook uri)) (held : Row)
      (cid : found.cid = some held.cid) (rev : found.rev = held.rev) :
      Evidence texts options w₂.transcript ⟨did, options.collection, found.rkey⟩ (some held) := by
    obtain ⟨pds, records, checked, status, body, heard, isChecked, omitted, gone⟩ :=
      confirmed.answer
    refine ⟨confirmed.apply, rfl, pds, stored, records, checked, status, body, _, ?_, isChecked,
      omitted, gone, lets, held, rfl, ?_⟩
    · rw [noted, heard, List.append_assoc]
      rfl
    · rw [← cid, ← rev]
      exact confirmed.mem
  have removes (lets : LetsThrough (reply₂.hook uri)) :
      Runs texts options (removeRow ⟨did, options.collection, found.rkey⟩ found)
        (fun _ => Follows w) w₂ :=
    steps_mono (removeRow_keeps (evidence lets)) fun _ _ _ => follows.trans
  split
  · exact steps_pure keeps_chains follows
  · exact steps_pure keeps_chains follows
  · rename_i hook
    exact removes (by rw [hook]; trivial)
  · rename_i hook
    exact removes (by rw [hook]; trivial)

theorem confirmMissing_keeps (pds did collection rkey : String) :
    Runs texts options (confirmMissing texts pds did collection rkey)
      (fun confirmed w' => Follows w w' ∧ (confirmed = .missing → ∃ status body,
        w'.transcript = w.transcript ++
          [.answer (getRecordUrl texts pds did collection rkey) status body] ∧
        getrecordAnswer texts status body = .missing)) w := by
  refine steps_bind keeps_chains (getUrl_keeps _) fun answer w₁ _ asked => ?_
  split
  · rename_i status body
    have noted := (asked.2 status body rfl).1
    exact steps_pure keeps_chains
      ⟨Follows.concat (.refl rfl) noted nofun, fun gone => ⟨status, body, noted, gone⟩⟩
  · exact steps_pure keeps_chains ⟨.refl (asked.1 _ rfl), nofun⟩

/-! ## One account -/

theorem checkMiss_keeps {did pds : String} {found : StoredKey} {stored : List StoredKey}
    {records : List ListedRecord}
    (checked : Checked texts options did pds stored records w.transcript)
    (mem : found ∈ stored) (omitted : found.rkey ∉ listedKeys records) :
    Runs texts options (checkMiss texts options pds did found)
      (fun _ => Follows w) w := by
  refine steps_bind keeps_chains (confirmMissing_keeps pds did _ _) fun confirmed w₁ _ asked => ?_
  obtain ⟨follows, gone⟩ := asked
  have reported (f : Report → Report) {w₂ : World} (h : Follows w w₂) :
      Runs texts options (updateReport f) (fun _ => Follows w) w₂ :=
    steps_mono (updateReport_keeps f) fun _ _ _ same => h.trans (.refl same)
  split
  · exact reported _ follows
  · exact reported _ follows
  · obtain ⟨status, body, noted, missing⟩ := gone rfl
    refine steps_bind keeps_chains (updateReport_keeps _) fun _ w₂ _ same => ?_
    split
    · have still : Runs texts options (pure .missing : JobM Outcome) (fun _ => Follows w) w₂ :=
        steps_pure keeps_chains (follows.trans (.refl same))
      exact steps_bind keeps_chains still fun _ w₃ _ h => reported _ h
    · rename_i apply
      have confirmed : Confirmation texts options did found stored w₂.transcript :=
        ⟨by simpa using apply, mem, pds, records, w.transcript, status, body, same.trans noted,
          checked, omitted, missing⟩
      refine steps_bind keeps_chains (delete_keeps confirmed) fun _ w₃ _ h => ?_
      exact reported _ ((follows.trans (.refl same)).trans h)

theorem checkMisses_keeps {did pds : String} {stored : List StoredKey}
    {records : List ListedRecord} {misses : List StoredKey}
    (checked : Checked texts options did pds stored records w.transcript)
    (missed : ∀ found ∈ misses, found ∈ stored ∧ found.rkey ∉ listedKeys records) :
    Runs texts options (checkMisses texts jobId options pds did misses) (fun _ _ => True) w := by
  induction misses generalizing w with
  | nil => exact steps_pure keeps_chains trivial
  | cons found misses ih =>
    obtain ⟨⟨mem, omitted⟩, rest⟩ := List.forall_mem_cons.mp missed
    refine steps_bind keeps_chains stopAsked_keeps fun stop w₁ _ same => ?_
    cases stop with
    | true => exact steps_pure keeps_chains trivial
    | false =>
      rw [← same] at checked
      refine steps_bind keeps_chains (checkMiss_keeps checked mem omitted)
        fun _ w₂ _ follows => ?_
      obtain ⟨more, heard, noRead⟩ := follows
      exact ih (heard ▸ checked.append noRead) rest

theorem suspicious_iff {stored : List StoredKey} {listing : Listing} {listed : List String}
    (h : ∀ rkey, (listing.lookup rkey).isSome = true ↔ rkey ∈ listed) :
    suspicious stored (stored.filter fun found => (listing.lookup found.rkey).isNone) listing =
      true ↔ Suspicious stored listed := by
  have misses : (stored.filter fun found => (listing.lookup found.rkey).isNone) =
      stored.filter fun found => found.rkey ∉ listed := by
    refine List.filter_congr fun found _ => ?_
    rw [Bool.eq_iff_iff, decide_eq_true_iff, ← h]
    simp
  have empty : listing.keys = [] ↔ listed = [] := by
    simp only [List.eq_nil_iff_forall_not_mem, ← h, AList.lookup_isSome, AList.mem_keys]
  rw [misses]
  simp [suspicious, Suspicious, suspiciousMisses, empty]

theorem check_keeps (fuel : Nat) (did : String) :
    Runs texts options (check texts jobId options fuel did)
      (fun _ _ => True) w := by
  have reported (f : Report → Report) {w₂ : World} :
      Runs texts options (updateReport f) (fun _ _ => True) w₂ :=
    steps_mono (updateReport_keeps f) fun _ _ _ _ => trivial
  refine steps_bind keeps_chains ask_keeps fun reply w₁ _ _ => ?_
  split
  · exact reported _
  refine wp_bind.mpr (wp_get.mpr ?_)
  dsimp only
  refine steps_bind keeps_chains (noteRead_keeps did) fun _ w₂ _ readNoted => ?_
  split
  · exact steps_pure keeps_chains trivial
  have gives (reply : Reply) (e : Event)
      (noted : e ∈ (reply.pds did).toOption.map (Event.resolved did)) : reply.Gives e := by
    cases found : reply.pds did with
    | error =>
      rw [found] at noted
      cases noted
    | ok pds =>
      rw [found] at noted
      cases noted
      exact found
  refine steps_bind keeps_chains (hear_keeps gives) fun reply₂ w₃ _ resolved => ?_
  split
  · exact reported _
  rename_i pds found
  have resolvedNoted := resolved.1
  rw [found, readNoted] at resolvedNoted
  refine steps_bind keeps_chains (listFrom_keeps pds did _ fuel none [] ∅)
    fun result w₄ _ listed => ?_
  split
  · exact keeps_chains.refl _
  · exact reported _
  · exact reported _
  · rename_i listing
    obtain ⟨answers, records, heard, complete, keys⟩ := listed.1 listing rfl
    have inListing (rkey : String) :
        (listing.lookup rkey).isSome = true ↔ rkey ∈ listedKeys records := by
      simp [keys]
    refine steps_bind keeps_chains (updateReport_keeps _) fun _ w₅ _ same₅ => ?_
    split
    · exact reported _
    split
    · exact reported _
    rename_i act
    refine steps_bind keeps_chains (updateReport_keeps _) fun _ w₆ _ same₆ => ?_
    have checked : Checked texts options did pds
        (networkKeysOf w₁.store did options.collection) records w₆.transcript := by
      refine ⟨⟨w₁.transcript, answers, [], ?_, complete, by simp⟩, ?_⟩
      · rw [same₆, same₅, heard, resolvedNoted]
        simp [Except.toOption]
      · rw [← suspicious_iff inListing]
        by_contra untrusted
        rw [not_or, not_not] at untrusted
        exact act (by simp [untrusted])
    refine checkMisses_keeps checked fun found missed => ?_
    obtain ⟨mem, unlisted⟩ := List.mem_filter.mp missed
    refine ⟨mem, fun listed => ?_⟩
    have found := (inListing _).mpr listed
    rw [Option.isNone_iff_eq_none.mp unlisted] at found
    cases found

theorem reconcile_keeps (fuel : Nat) (dids : List String) :
    Runs texts options (reconcile texts jobId options fuel dids)
      (fun _ _ => True) w := by
  induction dids generalizing w with
  | nil => exact steps_pure keeps_chains trivial
  | cons did dids ih =>
    refine steps_bind keeps_chains stopAsked_keeps fun stop w₁ _ _ => ?_
    cases stop with
    | true => exact steps_pure keeps_chains trivial
    | false =>
      refine steps_bind keeps_chains (check_keeps fuel did) fun _ w₂ _ _ => ?_
      refine wp_bind.mpr (wp_get.mpr ?_)
      split
      · exact steps_pure keeps_chains trivial
      · exact ih

/-- Whatever the world answers and other writers do, the job removes rows only on evidence: a row
that is as it was read before the PDS was asked, is omitted by a complete listing at the account's
PDS that is not suspicious or is allowed to be, then does not exist by that PDS's answer to
`getRecord` for it, and is let go by its hook. In a dry run only the other writers write. A
listing ends once the PDS is out of new cursors. -/
theorem reconcile_safe (texts : Texts) (jobId : Option String) (options : Options) (fuel : Nat)
    (dids : List String) (store : Store) (script : List Reply) (report : Report) :
    let w := ((reconcile texts jobId options fuel dids).run ⟨store, script, report, []⟩).2
    History texts options store script w.transcript w.store w.script ∧
    (options.dryRun = true →
      ∃ replies, script = replies ++ w.script ∧ w.store = writtenBy replies store) ∧
    ∀ (w : World) (pds did collection : String) (cursors : Finset String),
      (∀ next, Offers texts w.script next → next ∈ cursors) → cursors.card < fuel →
      ((listRecords texts jobId fuel pds did collection).run w).1 ≠ .ok none := by
  intro w
  have history : History texts options store script w.transcript w.store w.script := by
    refine wp_always
      (fun w => History texts options store script w.transcript w.store w.script)
      (wp_mono (reconcile_keeps fuel dids) (fun _ _ done => ?_) fun _ stop => ?_)
    · exact done.1.history store script .start
    · exact stop.history store script .start
  exact ⟨history, fun dry => history.dryRun dry,
    fun w pds did collection cursors finite enough =>
      listRecords_ends pds did collection finite enough⟩

end Safety

/-! A run that removes one of three rows, after a listing of two pages. -/

def lostKey (rkey : String) : RecordKey := ⟨"did:plc:ada", "example.note", rkey⟩

def lostStore : Store where
  records := ["kept", "lost", "more"].foldl (fun rows rkey =>
    rows.insert (lostKey rkey) ⟨"\x7b\x7d", "cid-" ++ rkey, some "3k", some 1, 1⟩) ∅

/-- A `listRecords` body with one record. -/
def lostPage (rkey cursor : String) : String :=
  "\x7b\"records\":[\x7b\"uri\":\"" ++ (lostKey rkey).uri ++ "\",\"cid\":\"cid-" ++ rkey ++
    "\",\"value\":\x7b\x7d\x7d]" ++ cursor ++ "\x7d"

def lostTexts : Texts where
  page body :=
    if body = lostPage "kept" ",\"cursor\":\"next\"" then
      .ok ⟨[⟨(lostKey "kept").uri, "cid-kept"⟩], some "next"⟩
    else if body = lostPage "more" "" then .ok ⟨[⟨(lostKey "more").uri, "cid-more"⟩], none⟩
    else .error "expected value"
  error body :=
    if body = "\x7b\"error\":\"RecordNotFound\"\x7d" then some "RecordNotFound" else none
  message _ := none
  urlEncode := Percent.encode
  displayStatus := toString

def lostAnswer (request : String) (status : Nat) (body : String) : Reply where
  response url :=
    if url = "https://pds.example/xrpc/com.atproto.repo." ++ request then .ok ⟨status, .ok body⟩
    else .error "unreachable"

def lostScript : List Reply :=
  [{}, { pds := fun _ => .ok "https://pds.example" },
    lostAnswer "listRecords?repo=did%3Aplc%3Aada&collection=example.note&limit=100" 200
      (lostPage "kept" ",\"cursor\":\"next\""),
    lostAnswer "listRecords?repo=did%3Aplc%3Aada&collection=example.note&limit=100&cursor=next" 200
      (lostPage "more" ""),
    lostAnswer "getRecord?repo=did%3Aplc%3Aada&collection=example.note&rkey=lost" 400
      "\x7b\"error\":\"RecordNotFound\"\x7d",
    {}, { hook := fun _ => .ok .proceed }, {}]

def lostOptions (dryRun : Bool) : Options := { collection := "example.note", dryRun }

def lostRun (dryRun : Bool) : World :=
  ((reconcile lostTexts none (lostOptions dryRun) 2 ["did:plc:ada"]).run
    ⟨lostStore, lostScript, {}, []⟩).2

theorem reconcile_safe_lost :
    History lostTexts (lostOptions false) lostStore lostScript (lostRun false).transcript
      (lostRun false).store (lostRun false).script ∧
    (lostRun false).report.deleted = 1 ∧
    (lostRun false).store.records.lookup (lostKey "lost") = none ∧
    (lostRun false).store.records.lookup (lostKey "kept") ≠ none ∧
    (lostRun true).report.missingTotal = 1 ∧
    (∃ replies, lostScript = replies ++ (lostRun true).script ∧
      (lostRun true).store = writtenBy replies lostStore) ∧
    ((listRecords lostTexts none 2 "https://pds.example" "did:plc:ada" "example.note").run
      ⟨lostStore, lostScript, {}, []⟩).1 ≠ .ok none := by
  obtain ⟨history, -, ends⟩ := reconcile_safe lostTexts none (lostOptions false) 2
    ["did:plc:ada"] lostStore lostScript {}
  obtain ⟨-, dry, -⟩ := reconcile_safe lostTexts none (lostOptions true) 2
    ["did:plc:ada"] lostStore lostScript {}
  refine ⟨?_, by decide +kernel, by decide +kernel, by decide +kernel, by decide +kernel, ?_,
    ends _ _ _ _ {"next"} ?_ (by decide)⟩
  · unfold lostRun
    exact history
  · unfold lostRun
    exact dry rfl
  rintro next ⟨reply, -, url, status, body, page, -, parsed, offered⟩
  unfold lostTexts at parsed
  dsimp only at parsed
  split at parsed
  · cases parsed
    cases offered
    simp
  · split at parsed
    · cases parsed
      cases offered
    · cases parsed

end HappyView.Jobs.Reconcile
