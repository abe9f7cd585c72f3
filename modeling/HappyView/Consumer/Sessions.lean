import HappyView.Consumer.Workers

/-!
# Cursors and the stream they point into

`run` opens one connection after another, all over one pool and one watermark. A session resumes
at the saved cursor or past the last event handed to the pool, whichever is further on. The
cursor rows are what outlives a crash.

A server here is one whose seqs stay what they are. It sends a session the events its filter asks
for, in the order of their seqs.
-/

namespace HappyView.Consumer

open HappyView.Foundation

/-! ## The saved cursor -/

inductive Protocol where
  | v1
  | v2
  deriving DecidableEq

/-- Cursors at or above this are unix microseconds; below, seqs. -/
def timestampCursorMin : Int := 1000000000000000

/-- How far before the saved time a resume on a different host starts. -/
def hostChangeRewindUs : Int := 5000000

structure StoredCursor where
  seq : Option Int := none
  timeUs : Option Int := none
  host : Option String := none
  deriving DecidableEq

namespace StoredCursor

/-- What `load` finds once `point` has been saved for `host`: the rows are written with one
timestamp, so the seq counts; a time that cannot be one and an empty host do not. -/
def save (host : String) (point : CursorPoint) : StoredCursor where
  seq := point.seq
  timeUs := (some point.timeUs).filter (timestampCursorMin ≤ ·)
  host := (some host).filter (· ≠ "")

/-- The cursor to subscribe with, or `none` for the live tip. -/
def resumeCursor (stored : StoredCursor) (host : String) (protocol : Protocol) : Option Int :=
  if stored.host.all (· = host) then
    match protocol with
    | .v2 => stored.seq.or stored.timeUs
    | .v1 => stored.timeUs
  else stored.timeUs.map (· - hostChangeRewindUs)

end StoredCursor

/-- Where a v2 session resumes. `lastDispatched` is a seq on this host, so it wins over a
witnessed-time cursor. -/
def v2Resume (saved lastDispatched : Option Int) : Option Int :=
  match saved, lastDispatched with
  | some saved, some dispatched =>
    if saved < timestampCursorMin then some (max saved dispatched) else some dispatched
  | none, some dispatched => some dispatched
  | saved, none => saved

def seqCursor (cursor : Option Int) : Option Int := cursor.filter (· < timestampCursorMin)

/-- The seq that a run started over the rows resumes from, if it is one. -/
def StoredCursor.resumeSeq (stored : StoredCursor) (host : String) : Option Int :=
  seqCursor (stored.resumeCursor host .v2)

/-! ## The server -/

/-- The events of one Jetstream instance, and which of them a filter asks for. -/
structure Server (K : Type) where
  stream : Int → Option (Event K)
  wants : List String → Event K → Bool
  cursor_eq : ∀ {seq event}, stream seq = some event → ∃ us, event.cursor = .v2 seq us
  seq_lt : ∀ {seq event}, stream seq = some event → seq < timestampCursorMin

namespace Server

variable {K : Type}

def wanted (server : Server K) (collections : List String) (seq : Int) : Bool :=
  (server.stream seq).any (server.wants collections)

/-- The first event after `position` that the filter asks for is at `seq`. -/
def sends (server : Server K) (collections : List String) (position seq : Int) : Bool :=
  server.wanted collections seq && position < seq &&
    (List.range (seq - position - 1).toNat).all fun i =>
      !server.wanted collections (position + 1 + i)

theorem sends_iff {server : Server K} {collections : List String} {position seq : Int} :
    server.sends collections position seq ↔ server.wanted collections seq ∧ position < seq ∧
      ∀ n, position < n → n < seq → server.wanted collections n = false := by
  simp only [sends, Bool.and_eq_true, decide_eq_true_eq, List.all_eq_true, List.mem_range,
    Bool.not_eq_true', and_assoc]
  refine and_congr_right fun _ => and_congr_right fun before => ⟨fun skipped n after lt => ?_,
    fun skipped i lt => skipped _ (by omega) (by omega)⟩
  have there : position + 1 + ((n - position - 1).toNat : Int) = n := by omega
  exact there ▸ skipped (n - position - 1).toNat (by omega)

end Server

/-! ## Where a session resumes -/

theorem seqCursor_eq_some {cursor : Option Int} {n : Int} :
    seqCursor cursor = some n ↔ cursor = some n ∧ n < timestampCursorMin := by
  simp [seqCursor, Option.filter_eq_some_iff]

section Resume

variable {saved last : Option Int}

theorem le_resume_of_saved (seq : ∀ n, last = some n → n < timestampCursorMin) {m : Int}
    (h : seqCursor saved = some m) : ∃ x, seqCursor (v2Resume saved last) = some x ∧ m ≤ x := by
  obtain ⟨rfl, lt⟩ := seqCursor_eq_some.mp h
  cases last with
  | none => exact ⟨m, h, Int.le_refl m⟩
  | some n =>
    have small := seq n rfl
    simp only [v2Resume, if_pos lt, seqCursor_eq_some, Option.some.injEq]
    exact ⟨max m n, ⟨rfl, by omega⟩, by omega⟩

theorem le_resume_of_last (seq : ∀ n, last = some n → n < timestampCursorMin) {n : Int}
    (h : last = some n) : ∃ x, seqCursor (v2Resume saved last) = some x ∧ n ≤ x := by
  have small := seq n h
  subst h
  cases saved with
  | none => exact ⟨n, seqCursor_eq_some.mpr ⟨rfl, small⟩, Int.le_refl n⟩
  | some m =>
    by_cases lt : m < timestampCursorMin
    · simp only [v2Resume, if_pos lt, seqCursor_eq_some, Option.some.injEq]
      exact ⟨max m n, ⟨rfl, by omega⟩, by omega⟩
    · simp only [v2Resume, if_neg lt, seqCursor_eq_some, Option.some.injEq]
      exact ⟨n, ⟨rfl, small⟩, Int.le_refl n⟩

theorem resume_cases {x : Int} (h : seqCursor (v2Resume saved last) = some x) :
    seqCursor saved = some x ∨ last = some x := by
  rw [seqCursor_eq_some] at h ⊢
  unfold v2Resume at h
  grind

end Resume

theorem StoredCursor.resumeSeq_save (host : String) {point : CursorPoint} {n : Int}
    (seq : point.seq = some n) (small : n < timestampCursorMin) :
    (StoredCursor.save host point).resumeSeq host = some n := by
  have same : (StoredCursor.save host point).host.all (· = host) = true := by
    by_cases empty : host = "" <;> simp [StoredCursor.save, empty]
  rw [resumeSeq, seqCursor_eq_some, resumeCursor, if_pos same]
  simp [StoredCursor.save, seq, small]

end HappyView.Consumer
