import HappyView.Foundation.Machine
import HappyView.Spaces.Oplog
import HappyView.Tid
import Mathlib.Logic.Function.Basic

/-!
# Revisions of one repo under concurrent writes

`createRecord`, `putRecord`, `deleteRecord` and `applyWrites` each draw the revision of the write
from the clock, then wait for the space's write lock, and append their operations to the author's
oplog in the transaction that holds it. Syncers poll the oplog in between, passing on the cursor
they got or, at the end of the log, the last revision they saw.

The lock orders the transactions but not the revisions drawn before it.
-/

namespace HappyView.Spaces

open HappyView.Foundation

/-- What `generate_tid` draws: the clock in microseconds and a random clock id. -/
structure Mint where
  us : Nat
  clockId : Nat
  deriving DecidableEq

namespace Mint

def rev (m : Mint) : String := Tid.tidFromParts m.us m.clockId

/-- Drawn in an earlier microsecond, or in the same with the smaller clock id; of both, a
TID keeps the low bits. -/
def Before (a b : Mint) : Prop :=
  a.us % 2 ^ 54 < b.us % 2 ^ 54 ∨
    (a.us % 2 ^ 54 = b.us % 2 ^ 54 ∧ a.clockId % 1024 < b.clockId % 1024)

instance (a b : Mint) : Decidable (a.Before b) := inferInstanceAs (Decidable (_ ∨ _))

theorem rev_lt_iff {a b : Mint} : a.rev < b.rev ↔ a.Before b := by
  have ha := Nat.mod_lt a.us (by omega : 0 < 2 ^ 54)
  have hb := Nat.mod_lt b.us (by omega : 0 < 2 ^ 54)
  have ca := Nat.mod_lt a.clockId (by omega : 0 < 1024)
  have cb := Nat.mod_lt b.clockId (by omega : 0 < 1024)
  rw [rev, rev, Tid.tidFromParts_eq, Tid.tidFromParts_eq,
    Tid.tidFromNumber_lt (by omega) (by omega), Before]
  omega

theorem rev_colon (m : Mint) : ':' ∉ m.rev.toList := by
  rw [rev, Tid.tidFromParts_eq]
  exact fun mem => absurd (Tid.mem_tidFromNumber mem) (by decide +kernel)

end Mint

structure Commit where
  mint : Mint
  ops : List AppliedOp
  deriving DecidableEq

def Commit.entries (c : Commit) : List OplogEntry := writeEntries c.mint.rev c.ops

structure Syncer where
  cursor : Option String := none
  received : List OplogEntry := []

def clampLimit (limit : Nat) : Nat := max 1 (min limit 1000)

/-- One request of `listRepoOps`. At the end of the log there is no cursor, and the last
revision received takes its place. -/
def Syncer.poll (y : Syncer) (rows : List OplogEntry) (limit : Nat) : Syncer :=
  let (page, next) := listOps rows y.cursor (clampLimit limit)
  { cursor := next.or ((page.getLast?.map (·.rev)).or y.cursor)
    received := y.received ++ page }

structure Repo where
  clock : Nat := 0
  /-- The requests that have drawn a revision and not ended. -/
  minted : Nat → Option Mint := fun _ => none
  /-- The request whose transaction holds the space's write lock. -/
  holder : Option Nat := none
  committed : List Commit := []
  syncers : Nat → Syncer := fun _ => {}

def Repo.oplog (s : Repo) : List OplogEntry := s.committed.flatMap Commit.entries

inductive WriteAction where
  | mint (request us clockId : Nat)
  | lock (request : Nat)
  | commit (request : Nat) (ops : List AppliedOp)
  | abort (request : Nat)
  | poll (syncer limit : Nat)
  deriving DecidableEq

namespace Repo

def step (s : Repo) : WriteAction → Option Repo
  | .mint request us clockId =>
    -- The clock does not go back.
    if s.minted request = none ∧ s.clock ≤ us then
      some { s with clock := us, minted := Function.update s.minted request (some ⟨us, clockId⟩) }
    else none
  | .lock request =>
    if (s.minted request).isSome ∧ s.holder = none then some { s with holder := some request }
    else none
  | .commit request ops =>
    match s.minted request with
    | some mint =>
      -- The operations of a write are numbered by an `i32`.
      if s.holder = some request ∧ ops.length ≤ 2 ^ 31 then
        some { s with
          holder := none
          minted := Function.update s.minted request none
          committed := s.committed ++ [⟨mint, ops⟩] }
      else none
    | none => none
  | .abort request =>
    some { s with
      holder := if s.holder = some request then none else s.holder
      minted := Function.update s.minted request none }
  | .poll syncer limit =>
    some { s with
      syncers := Function.update s.syncers syncer ((s.syncers syncer).poll s.oplog limit) }

end Repo

def repo : Machine Repo WriteAction where
  start := {}
  step := Repo.step

/-! ## The log in order -/

/-- Of any two committed writes, the one committed first drew its revision before the other. -/
def InMintOrder (committed : List Commit) : Prop :=
  committed.Pairwise fun a b => a.mint.Before b.mint

instance (committed : List Commit) : Decidable (InMintOrder committed) :=
  inferInstanceAs (Decidable (List.Pairwise _ _))

theorem mem_writeEntries {rev : String} {ops : List AppliedOp} {entry : OplogEntry}
    (h : entry ∈ writeEntries rev ops) :
    entry.rev = rev ∧ ∃ n : Nat, entry.idx = n ∧ n < ops.length := by
  obtain ⟨⟨op, n⟩, mem, rfl⟩ := List.mem_map.mp h
  exact ⟨rfl, n, rfl, by simpa using List.snd_lt_of_mem_zipIdx mem⟩

theorem ascending_writeEntries (rev : String) (ops : List AppliedOp) :
    Paging.Ascending OplogEntry.key (writeEntries rev ops) := by
  refine List.pairwise_iff_getElem.mpr fun i j hi hj lt => ?_
  rw [OplogEntry.key, OplogEntry.key, Prod.Lex.toLex_lt_toLex]
  right
  simpa [writeEntries] using lt

theorem ascending_oplog {s : Repo} (order : InMintOrder s.committed) :
    Paging.Ascending OplogEntry.key s.oplog := by
  refine List.pairwise_flatMap.mpr ⟨fun c _ => ascending_writeEntries _ _, order.imp ?_⟩
  intro a b before x hx y hy
  have hx := (mem_writeEntries hx).1
  have hy := (mem_writeEntries hy).1
  rw [OplogEntry.key, OplogEntry.key, Prod.Lex.toLex_lt_toLex]
  left
  rw [hx, hy]
  exact Mint.rev_lt_iff.mpr before

/-! ## Syncers -/

def Syncer.position (y : Syncer) : Option (String ×ₗ Int) := y.cursor.map (toLex ∘ parseCursor)

def Syncer.pending (y : Syncer) (rows : List OplogEntry) : List OplogEntry :=
  Paging.after OplogEntry.key y.position rows

def Addressable (rows : List OplogEntry) : Prop :=
  ∀ entry ∈ rows, ':' ∉ entry.rev.toList ∧ ∃ n : Nat, entry.idx = n ∧ n ≤ 2147483647

/-- The syncer has received the log up to its position, once each and in order, and its
position is in a write of the log. -/
structure Syncer.Reads (y : Syncer) (rows : List OplogEntry) : Prop where
  received : y.received = Paging.upTo OplogEntry.key y.position rows
  within : ∀ c ∈ y.position, ∃ entry ∈ rows, entry.rev = (ofLex c).1

namespace Syncer

variable {y : Syncer} {rows : List OplogEntry}

theorem received_append_pending (reads : y.Reads rows)
    (asc : Paging.Ascending OplogEntry.key rows) : y.received ++ y.pending rows = rows := by
  rw [reads.received]
  exact Paging.upTo_append_after asc

theorem poll_eq (asc : Paging.Ascending OplogEntry.key rows) (limit : Nat) :
    let page := (y.pending rows).take (clampLimit limit)
    let next := if clampLimit limit < (y.pending rows).length then
      page.getLast?.map fun entry => encodeCursor entry.rev entry.idx else none
    y.poll rows limit =
      ⟨next.or ((page.getLast?.map (·.rev)).or y.cursor), y.received ++ page⟩ := by
  have more : clampLimit limit < min (clampLimit limit + 1) (y.pending rows).length ↔
      clampLimit limit < (y.pending rows).length := by omega
  simp only [poll, listOps_eq asc, paginate, List.take_take, List.length_take,
    Nat.min_eq_left (Nat.le_succ _)]
  simp only [pending, position] at more ⊢
  simp only [more]
  rfl

theorem poll_received (asc : Paging.Ascending OplogEntry.key rows) (limit : Nat) :
    (y.poll rows limit).received = y.received ++ (y.pending rows).take (clampLimit limit) := by
  rw [poll_eq asc]

theorem mem_of_pending {entry : OplogEntry} (h : entry ∈ y.pending rows) : entry ∈ rows :=
  (Paging.mem_after.mp h).1

theorem poll_position_more {front rest : List OplogEntry} {last : OplogEntry}
    (asc : Paging.Ascending OplogEntry.key rows) (addressable : Addressable rows) {limit : Nat}
    (size : clampLimit limit = front.length + 1) (cut : y.pending rows = front ++ last :: rest)
    (more : rest ≠ []) : (y.poll rows limit).position = some last.key := by
  obtain ⟨-, n, idx, small⟩ := addressable last (mem_of_pending (y := y) (by simp [cut]))
  have page : (y.pending rows).take (clampLimit limit) = front ++ [last] := by
    rw [cut, size, List.append_cons, List.take_left' (by simp)]
  have longer : clampLimit limit < (y.pending rows).length := by
    have := List.length_pos_of_ne_nil more
    simp [cut, size]
    omega
  rw [poll_eq asc, page]
  simp [position, longer, idx, parseCursor_encodeCursor _ small, OplogEntry.key]

theorem poll_position_end {front : List OplogEntry} {last : OplogEntry}
    (asc : Paging.Ascending OplogEntry.key rows) (addressable : Addressable rows) {limit : Nat}
    (size : front.length + 1 ≤ clampLimit limit) (cut : y.pending rows = front ++ [last]) :
    (y.poll rows limit).position = some (toLex (last.rev, i32Max)) := by
  obtain ⟨noColon, -⟩ := addressable last (mem_of_pending (y := y) (by simp [cut]))
  have page : (y.pending rows).take (clampLimit limit) = front ++ [last] := by
    rw [cut]
    exact List.take_of_length_le (by simpa using size)
  have last' : ¬ clampLimit limit < (y.pending rows).length := by
    simp [cut]
    omega
  rw [poll_eq asc, page]
  simp [position, last', parseCursor_rev noColon]

theorem within_of_position {c : String ×ₗ Int} {entry : OplogEntry} (at' : y.position = some c)
    (mem : entry ∈ rows) (same : entry.rev = (ofLex c).1) :
    ∀ c ∈ y.position, ∃ entry ∈ rows, entry.rev = (ofLex c).1 := by
  intro d hd
  rw [at', Option.mem_def] at hd
  obtain rfl := Option.some.inj hd
  exact ⟨entry, mem, same⟩

section Poll

variable (reads : y.Reads rows) (asc : Paging.Ascending OplogEntry.key rows)
  (addressable : Addressable rows)

include reads asc addressable

theorem poll_reads_more {limit : Nat}
    (longer : clampLimit limit < (y.pending rows).length) : (y.poll rows limit).Reads rows := by
  have pos : 0 < clampLimit limit := Nat.le_max_left 1 _
  obtain ⟨front, last, rest, cut, page, size, more⟩ := Paging.exists_page pos longer
  have position := poll_position_more asc addressable size cut more
  refine ⟨?_, within_of_position position (mem_of_pending (y := y) (by simp [cut])) rfl⟩
  rw [poll_received asc, position, page, reads.received]
  exact (Paging.upTo_last asc cut).symm

theorem poll_reads_end {limit : Nat}
    (fits : (y.pending rows).length ≤ clampLimit limit) : (y.poll rows limit).Reads rows := by
  have whole := received_append_pending reads asc
  have taken : (y.poll rows limit).received = rows := by
    rw [poll_received asc, List.take_of_length_le fits, whole]
  rcases List.eq_nil_or_concat' (y.pending rows) with nothing | ⟨front, last, cut⟩
  · have same : (y.poll rows limit).position = y.position := by
      rw [poll_eq asc]
      simp [nothing, position]
    rw [nothing, List.append_nil] at whole
    constructor
    · rw [taken, same, ← reads.received, whole]
    · rw [same]
      exact reads.within
  · have size : front.length + 1 ≤ clampLimit limit := by simpa [cut] using fits
    have position := poll_position_end asc addressable size cut
    have mem : last ∈ rows := mem_of_pending (y := y) (by simp [cut])
    refine ⟨?_, within_of_position position mem rfl⟩
    rw [taken, position]
    -- Every row is at or before the last one, and so before the end of its write.
    refine (Paging.upTo_of_le fun entry mem' => ?_).symm
    obtain ⟨-, n, idx, small⟩ := addressable last mem
    rw [cut, ← List.append_assoc] at whole
    rw [← whole] at asc mem'
    refine (Paging.key_le_last asc entry mem').trans ?_
    refine Prod.Lex.toLex_le_toLex.mpr (.inr ⟨rfl, ?_⟩)
    unfold i32Max
    omega

theorem poll_reads (limit : Nat) : (y.poll rows limit).Reads rows := by
  by_cases longer : clampLimit limit < (y.pending rows).length
  · exact poll_reads_more reads asc addressable longer
  · exact poll_reads_end reads asc addressable (by omega)

end Poll

theorem reads_append (reads : y.Reads rows) {new : List OplogEntry}
    (newer : ∀ entry ∈ new, ∀ old ∈ rows, old.rev < entry.rev) : y.Reads (rows ++ new) := by
  constructor
  · rw [reads.received, Paging.upTo_append]
    intro entry mem c hc
    obtain ⟨old, hold, same⟩ := reads.within c hc
    refine Prod.Lex.lt_iff.mpr (.inl ?_)
    rw [← same]
    exact newer entry mem old hold
  · intro c hc
    obtain ⟨old, hold, same⟩ := reads.within c hc
    exact ⟨old, List.mem_append_left _ hold, same⟩

theorem poll_pending (reads : y.Reads rows) (asc : Paging.Ascending OplogEntry.key rows)
    (addressable : Addressable rows) (limit : Nat) :
    (y.poll rows limit).pending rows = (y.pending rows).drop (clampLimit limit) := by
  have before := received_append_pending reads asc
  have later := received_append_pending (poll_reads reads asc addressable limit) asc
  rw [poll_received asc, List.append_assoc] at later
  have rest := List.append_cancel_left (later.trans before.symm)
  exact List.append_cancel_left (rest.trans (List.take_append_drop _ _).symm)

end Syncer

/-! ## Runs -/

namespace Repo

variable {s t : Repo}

theorem step_cases {a : WriteAction} (h : s.step a = some t) :
    (∃ mint ops, ops.length ≤ 2 ^ 31 ∧ t.committed = s.committed ++ [⟨mint, ops⟩] ∧
      t.syncers = s.syncers) ∨
    (t.committed = s.committed ∧ (t.syncers = s.syncers ∨ ∃ k limit,
      t.syncers = Function.update s.syncers k ((s.syncers k).poll s.oplog limit))) := by
  cases a with
  | mint request us clockId =>
    obtain ⟨-, ⟨⟩⟩ := Option.ite_none_right_eq_some.mp h
    exact .inr ⟨rfl, .inl rfl⟩
  | lock request =>
    obtain ⟨-, ⟨⟩⟩ := Option.ite_none_right_eq_some.mp h
    exact .inr ⟨rfl, .inl rfl⟩
  | commit request ops =>
    simp only [step] at h
    split at h
    · rename_i mint drawn
      obtain ⟨⟨-, size⟩, ⟨⟩⟩ := Option.ite_none_right_eq_some.mp h
      exact .inl ⟨mint, ops, size, rfl, rfl⟩
    · cases h
  | abort request =>
    cases h
    exact .inr ⟨rfl, .inl rfl⟩
  | poll syncer limit =>
    cases h
    exact .inr ⟨rfl, .inr ⟨syncer, limit, rfl⟩⟩

theorem oplog_append {mint : Mint} {ops : List AppliedOp}
    (h : t.committed = s.committed ++ [⟨mint, ops⟩]) :
    t.oplog = s.oplog ++ writeEntries mint.rev ops := by
  simp [oplog, h, Commit.entries]

/-- Every write is numbered within `i32`, and while the writes are in the order they drew
their revisions in, every syncer has the log up to its position. -/
structure Inv (s : Repo) : Prop where
  small : ∀ c ∈ s.committed, c.ops.length ≤ 2 ^ 31
  reads : InMintOrder s.committed → ∀ k, (s.syncers k).Reads s.oplog

theorem Inv.addressable (inv : s.Inv) : Addressable s.oplog := by
  intro entry mem
  obtain ⟨c, hc, inside⟩ := List.mem_flatMap.mp mem
  obtain ⟨rev, n, idx, lt⟩ := mem_writeEntries inside
  have := inv.small c hc
  exact ⟨rev ▸ c.mint.rev_colon, n, idx, by omega⟩

theorem inv_step (inv : s.Inv) {a : WriteAction} (h : s.step a = some t) : t.Inv := by
  rcases step_cases h with ⟨mint, ops, size, committed, syncers⟩ | ⟨committed, syncers⟩
  · constructor
    · intro c hc
      rw [committed] at hc
      rcases List.mem_append.mp hc with old | new
      · exact inv.small c old
      · rw [List.mem_singleton.mp new]
        exact size
    · intro order k
      rw [committed] at order
      obtain ⟨earlier, -, newer⟩ := List.pairwise_append.mp order
      rw [syncers, oplog_append committed]
      refine Syncer.reads_append (inv.reads earlier k) fun entry mem old hold => ?_
      obtain ⟨c, hc, inside⟩ := List.mem_flatMap.mp hold
      rw [(mem_writeEntries mem).1, (mem_writeEntries inside).1]
      exact Mint.rev_lt_iff.mpr (newer c hc ⟨mint, ops⟩ (by simp))
  · have log : t.oplog = s.oplog := by rw [oplog, oplog, committed]
    refine ⟨by rw [committed]; exact inv.small, fun order k => ?_⟩
    rw [committed] at order
    rw [log]
    rcases syncers with same | ⟨j, limit, polled⟩
    · rw [same]
      exact inv.reads order k
    · rw [polled, Function.update_apply]
      split
      · exact Syncer.poll_reads (inv.reads order j) (ascending_oplog order) inv.addressable limit
      · exact inv.reads order k

theorem inv_run {actions : List WriteAction} (h : repo.run actions = some s) : s.Inv := by
  refine Machine.induct (P := fun _ s => s.Inv) ?_ (fun _ _ _ _ inv step => inv_step inv step) h
  refine ⟨by simp [repo], fun _ _ => ⟨?_, ?_⟩⟩ <;> simp [repo, Syncer.position]

theorem catches_up (inv : s.Inv) (order : InMintOrder s.committed) (k limit n : Nat)
    (enough : ((s.syncers k).pending s.oplog).length ≤ n) :
    ∃ t, repo.runFrom s (List.replicate n (.poll k limit)) = some t ∧
      (t.syncers k).received = s.oplog := by
  have asc := ascending_oplog order
  induction n generalizing s with
  | zero =>
    have nothing := List.length_eq_zero_iff.mp (Nat.le_zero.mp enough)
    have whole := Syncer.received_append_pending (inv.reads order k) asc
    rw [nothing, List.append_nil] at whole
    exact ⟨s, rfl, whole⟩
  | succ n ih =>
    let s' : Repo := { s with
      syncers := Function.update s.syncers k ((s.syncers k).poll s.oplog limit) }
    have step : s.step (.poll k limit) = some s' := rfl
    have pending := Syncer.poll_pending (inv.reads order k) asc inv.addressable limit
    have pos : 1 ≤ clampLimit limit := Nat.le_max_left 1 _
    have moved : s'.syncers k = (s.syncers k).poll s.oplog limit := Function.update_self ..
    have fewer : ((s'.syncers k).pending s.oplog).length ≤ n := by
      rw [moved, pending, List.length_drop]
      omega
    obtain ⟨t, run, received⟩ := ih (inv_step inv step) order fewer asc
    exact ⟨t, Machine.runFrom_cons.mpr ⟨s', step, run⟩, received⟩

/-- What the syncer has is the beginning of the log, and polling on gives it all of the log:
no operation is missed and none comes twice. -/
structure ExactlyOnce (s : Repo) (k : Nat) : Prop where
  soFar : (s.syncers k).received <+: s.oplog
  catchesUp : ∀ limit, ∃ n t, repo.runFrom s (List.replicate n (.poll k limit)) = some t ∧
    (t.syncers k).received = s.oplog

end Repo

/-- Revisions ascend in commit order, and every syncer receives every operation once, exactly
in the runs that commit the writes in the order they drew their revisions in. -/
theorem writes_ordered_iff {actions : List WriteAction} {s : Repo}
    (run : repo.run actions = some s) :
    (s.committed.Pairwise (fun a b => a.mint.rev < b.mint.rev) ∧ ∀ k, s.ExactlyOnce k) ↔
      InMintOrder s.committed := by
  constructor
  · rintro ⟨ascend, -⟩
    exact ascend.imp Mint.rev_lt_iff.mp
  · intro order
    have inv := Repo.inv_run run
    refine ⟨order.imp Mint.rev_lt_iff.mpr, fun k => ⟨?_, fun limit => ?_⟩⟩
    · exact ⟨_, Syncer.received_append_pending (inv.reads order k) (ascending_oplog order)⟩
    · exact ⟨_, Repo.catches_up inv order k limit _ le_rfl⟩

def postOp (rkey : String) : AppliedOp := ⟨.create, "com.example.post", rkey, some rkey, none⟩

/-- Two requests draw their revisions; the later one gets the lock first. A syncer polls
between the two commits, and again after a third write. -/
def overtaken : List WriteAction :=
  [.mint 0 1000 7, .mint 1 1001 3, .lock 1, .commit 1 [postOp "b"], .poll 0 100,
    .lock 0, .commit 0 [postOp "a"], .mint 2 1002 5, .lock 2, .commit 2 [postOp "c"], .poll 0 100]

theorem overtaken_write_lost : ∃ s, repo.run overtaken = some s ∧
    ¬ s.committed.Pairwise (fun a b => a.mint.rev < b.mint.rev) ∧
      (s.syncers 0).received.map (·.op) = [postOp "b", postOp "c"] ∧ ¬ s.ExactlyOnce 0 := by
  obtain ⟨s, run, fails⟩ := (Option.any_eq_true _ _).mp (by decide +kernel :
    (repo.run overtaken).any (fun s =>
      !decide (s.committed.Pairwise (fun a b => a.mint.rev < b.mint.rev)) &&
      (s.syncers 0).received.map (·.op) == [postOp "b", postOp "c"] &&
      !decide ((s.syncers 0).received <+: s.oplog)) = true)
  simp only [Bool.and_eq_true, Bool.not_eq_true', decide_eq_false_iff_not, beq_iff_eq] at fails
  exact ⟨s, run, fails.1.1, fails.1.2, fun once => fails.2 once.soFar⟩

def inTurn : List WriteAction :=
  [.mint 0 1000 7, .lock 0, .commit 0 [postOp "a"], .mint 1 1001 3, .lock 1,
    .commit 1 [postOp "b"], .poll 0 100, .mint 2 1002 5, .lock 2, .commit 2 [postOp "c"]]

theorem writes_ordered_inTurn : ∃ s, repo.run inTurn = some s ∧
    s.committed.Pairwise (fun a b => a.mint.rev < b.mint.rev) ∧ ∀ k, s.ExactlyOnce k := by
  obtain ⟨s, run, order⟩ := (Option.any_eq_true _ _).mp (by decide +kernel :
    (repo.run inTurn).any (fun s => decide (InMintOrder s.committed)) = true)
  exact ⟨s, run, (writes_ordered_iff run).mpr (decide_eq_true_eq.mp order)⟩

end HappyView.Spaces
