import Mathlib.Data.List.Induction
import Mathlib.Data.List.TakeWhile

/-!
# The applied watermark

The reader hands out a ticket for each event it reads, in read order, and the
workers finish tickets in any order. `Watermark` keeps only the tickets that
have not retired, each with a flag saying whether it finished, and advances its
applied point over finished tickets at the front of that queue.

The whole history of a watermark is kept beside it as a `History`, which forgets nothing.
-/

namespace HappyView.Consumer

/-- Where an event sits in the stream, in the coordinate its protocol resumes from. -/
inductive CursorPoint where
  | v2 (seq witnessedUs : Int)
  | v1 (timeUs : Int)
  deriving DecidableEq

def CursorPoint.seq : CursorPoint → Option Int
  | .v2 seq _ => some seq
  | .v1 _ => none

def CursorPoint.timeUs : CursorPoint → Int
  | .v2 _ witnessedUs => witnessedUs
  | .v1 timeUs => timeUs

structure Watermark where
  /-- The ticket of `pending[0]`. -/
  front : Nat := 0
  /-- Every ticket from `front` on, in read order, and whether it finished. -/
  pending : List (CursorPoint × Bool) := []
  applied : Option CursorPoint := none
  deriving DecidableEq

namespace Watermark

def begin (w : Watermark) (point : CursorPoint) : Nat × Watermark :=
  (w.front + w.pending.length, { w with pending := w.pending ++ [(point, false)] })

/-- The loop of `complete`: pop every finished ticket at the front. -/
def retire (front : Nat) (applied : Option CursorPoint) :
    List (CursorPoint × Bool) → Watermark
  | (point, true) :: rest => retire (front + 1) (some point) rest
  | pending => ⟨front, pending, applied⟩

/-- Mark a ticket finished and advance over every finished ticket at the front.
Unknown and already retired tickets are ignored. -/
def complete (w : Watermark) (ticket : Nat) : Watermark :=
  if ticket < w.front then w
  else match w.pending[ticket - w.front]? with
    | none => w
    | some (point, _) =>
      retire w.front w.applied (w.pending.set (ticket - w.front) (point, true))

/-- Tickets not yet retired: unfinished, or finished behind one that is not. -/
def inFlight (w : Watermark) : Nat := w.pending.length

def nextTicket (w : Watermark) : Nat := w.front + w.pending.length

def hasRetired (w : Watermark) (ticket : Nat) : Bool := w.front > ticket

def appliedIfRetired (w : Watermark) (ticket : Nat) : Option CursorPoint :=
  if w.hasRetired ticket then w.applied else none

end Watermark

/-! ## The full history -/

/-- Everything that ever happened to a watermark: the points issued, whose index
is their ticket, and the tickets finished after they were issued. -/
structure History where
  issued : List CursorPoint := []
  finished : List Nat := []

namespace History

def begin (h : History) (point : CursorPoint) : History :=
  { h with issued := h.issued ++ [point] }

def complete (h : History) (ticket : Nat) : History :=
  if ticket < h.issued.length then { h with finished := h.finished ++ [ticket] } else h

def finishedPrefix (h : History) : Nat :=
  ((List.range h.issued.length).takeWhile (· ∈ h.finished)).length

/-- Every ticket up to `ticket` has finished. -/
def Retired (h : History) (ticket : Nat) : Prop := ∀ i ≤ ticket, i ∈ h.finished

instance (h : History) (ticket : Nat) : Decidable (h.Retired ticket) :=
  decidable_of_iff (∀ i < ticket + 1, i ∈ h.finished)
    ⟨fun all i hi => all i (by omega), fun all i hi => all i (by omega)⟩

@[simp] theorem complete_issued (h : History) (ticket : Nat) :
    (h.complete ticket).issued = h.issued := by
  unfold complete
  split <;> rfl

theorem mem_complete_finished {h : History} {ticket t : Nat}
    (ht : t ∈ (h.complete ticket).finished) :
    t ∈ h.finished ∨ t = ticket := by
  unfold complete at ht
  split at ht
  · simpa using ht
  · exact .inl ht

theorem finishedPrefix_eq {h : History} {n : Nat} (le : n ≤ h.issued.length)
    (below : ∀ i < n, i ∈ h.finished) (stop : n < h.issued.length → n ∉ h.finished) :
    h.finishedPrefix = n := by
  obtain ⟨m, hm⟩ := Nat.exists_eq_add_of_le le
  have split : List.range h.issued.length =
      List.range n ++ (List.range m).map (n + ·) := by
    rw [hm, List.range_add]
  have all : ∀ i ∈ List.range n, decide (i ∈ h.finished) = true := by
    intro i hi
    simpa using below i (List.mem_range.mp hi)
  unfold finishedPrefix
  rw [split, List.takeWhile_append_of_pos all]
  cases m with
  | zero => simp
  | succ m =>
    have hn : n ∉ h.finished := stop (by omega)
    simp [List.range_succ_eq_map, hn]

end History

/-! ## The watermark tracks its history -/

namespace Watermark

/-- The loop invariant of `retire`: everything but the claim that the front ticket
is unfinished. -/
structure Follows (front : Nat) (pending : List (CursorPoint × Bool))
    (applied : Option CursorPoint) (h : History) : Prop where
  front_le : front ≤ h.issued.length
  before : ∀ i < front, i ∈ h.finished
  pending : ∀ i, pending[i]? =
    (h.issued[front + i]?).map fun point => (point, decide (front + i ∈ h.finished))
  applied : applied = (h.issued.take front).getLast?
  finished_lt : ∀ i ∈ h.finished, i < h.issued.length

structure Tracks (w : Watermark) (h : History) : Prop
    extends Follows w.front w.pending w.applied h where
  stop : w.front < h.issued.length → w.front ∉ h.finished

variable {front : Nat} {pending : List (CursorPoint × Bool)} {applied : Option CursorPoint}
variable {w : Watermark} {h : History}

theorem Follows.pending_length (f : Follows front pending applied h) :
    pending.length = h.issued.length - front := by
  have le := f.front_le
  apply Nat.le_antisymm
  · rw [← List.getElem?_eq_none_iff, f.pending, List.getElem?_eq_none (by omega)]
    rfl
  · rw [← Nat.not_lt]
    intro short
    have absent := f.pending pending.length
    rw [List.getElem?_eq_none (Nat.le_refl _), List.getElem?_eq_getElem (by omega)] at absent
    exact absurd absent (by simp)

theorem tracks_empty : Tracks {} {} where
  front_le := Nat.le_refl 0
  before := by simp
  pending := by simp
  applied := rfl
  finished_lt := by simp
  stop := by simp

theorem Tracks.begin (t : Tracks w h) (point : CursorPoint) :
    Tracks (w.begin point).2 (h.begin point) := by
  have len := t.pending_length
  have le := t.front_le
  have fresh : h.issued.length ∉ h.finished := fun hm => absurd (t.finished_lt _ hm) (by omega)
  refine ⟨⟨?_, t.before, ?_, ?_, ?_⟩, ?_⟩
  · simp only [Watermark.begin, History.begin, List.length_append, List.length_singleton]
    omega
  · intro i
    change (w.pending ++ [(point, false)])[i]? = ((h.issued ++ [point])[w.front + i]?).map
      fun point => (point, decide (w.front + i ∈ h.finished))
    rcases Nat.lt_trichotomy i w.pending.length with old | new | past
    · rw [List.getElem?_append_left old, List.getElem?_append_left (by omega)]
      exact t.pending i
    · have slot : w.front + i = h.issued.length := by omega
      rw [slot, new, List.getElem?_concat_length, List.getElem?_concat_length]
      simp [fresh]
    · rw [List.getElem?_eq_none (by simp; omega), List.getElem?_eq_none (by simp; omega)]
      rfl
  · simp only [Watermark.begin, History.begin, List.take_append_of_le_length le]
    exact t.applied
  · intro i hi
    have := t.finished_lt i hi
    simp only [History.begin, List.length_append, List.length_singleton]
    omega
  · intro _ hm
    exact t.stop (t.finished_lt _ hm) hm

theorem Tracks.begin_ticket (t : Tracks w h) (point : CursorPoint) :
    (w.begin point).1 = h.issued.length := by
  have len := t.pending_length
  have le := t.front_le
  simp only [Watermark.begin]
  omega

theorem Follows.retire (f : Follows front pending applied h) :
    Tracks (Watermark.retire front applied pending) h := by
  induction pending generalizing front applied with
  | nil =>
    have len := f.pending_length
    refine ⟨f, fun hlt => absurd hlt ?_⟩
    simp only [Watermark.retire, List.length_nil] at len ⊢
    omega
  | cons slot rest ih =>
    obtain ⟨point, done⟩ := slot
    have head := f.pending 0
    simp only [List.getElem?_cons_zero, Nat.add_zero] at head
    obtain ⟨q, hq, hslot⟩ := Option.map_eq_some_iff.mp head.symm
    obtain ⟨rfl, hdone⟩ := Prod.mk.inj hslot
    have hlt := (List.getElem?_eq_some_iff.mp hq).1
    cases done with
    | false => exact ⟨f, fun _ => by simpa [Watermark.retire] using hdone⟩
    | true =>
      have hfin : front ∈ h.finished := by simpa using hdone
      refine ih ⟨hlt, ?_, ?_, ?_, f.finished_lt⟩
      · intro i hi
        rcases Nat.lt_succ_iff_lt_or_eq.mp hi with old | rfl
        · exact f.before i old
        · exact hfin
      · intro i
        simpa [Nat.add_assoc, Nat.add_comm 1 i] using f.pending (i + 1)
      · rw [List.take_add_one, hq]
        simp

theorem Follows.finish (f : Follows front pending applied h) {i : Nat}
    {point : CursorPoint} {done : Bool} (slot : pending[i]? = some (point, done)) :
    Follows front (pending.set i (point, true)) applied (h.complete (front + i)) := by
  have known := f.pending i
  rw [slot] at known
  obtain ⟨q, hq, hslot⟩ := Option.map_eq_some_iff.mp known.symm
  obtain ⟨rfl, -⟩ := Prod.mk.inj hslot
  have issued := (List.getElem?_eq_some_iff.mp hq).1
  have inside := (List.getElem?_eq_some_iff.mp slot).1
  simp only [History.complete, if_pos issued]
  refine ⟨f.front_le, ?_, ?_, f.applied, ?_⟩
  · intro j hj
    exact List.mem_append_left _ (f.before j hj)
  · intro j
    rw [List.getElem?_set]
    by_cases here : i = j
    · subst here
      simp [inside, hq]
    · have off : front + j ≠ front + i := by omega
      simp [here, f.pending j, Ne.symm here]
  · intro j hj
    rcases List.mem_append.mp hj with old | new
    · exact f.finished_lt j old
    · exact List.mem_singleton.mp new ▸ issued

theorem Tracks.complete (t : Tracks w h) (ticket : Nat) :
    Tracks (w.complete ticket) (h.complete ticket) := by
  have len := t.pending_length
  have le := t.front_le
  unfold Watermark.complete
  split
  case isTrue retired =>
    -- Finishing a retired ticket again adds nothing the front has not passed.
    have issued : ticket < h.issued.length := by omega
    simp only [History.complete, if_pos issued]
    have mem : ∀ i, i ∈ h.finished ++ [ticket] ↔ i ∈ h.finished := by
      intro i
      have := t.before ticket retired
      constructor
      · rintro hi
        rcases List.mem_append.mp hi with old | new
        · exact old
        · exact List.mem_singleton.mp new ▸ this
      · exact List.mem_append_left _
    exact ⟨⟨le, fun i hi => (mem i).mpr (t.before i hi), fun i => by simp only [mem, t.pending i],
      t.applied, fun i hi => t.finished_lt i ((mem i).mp hi)⟩,
      fun hlt hm => t.stop hlt ((mem _).mp hm)⟩
  case isFalse live =>
    have offset : w.front + (ticket - w.front) = ticket := by omega
    split
    case h_1 absent =>
      have unknown : ¬ ticket < h.issued.length := by
        have := List.getElem?_eq_none_iff.mp absent
        omega
      simpa only [History.complete, if_neg unknown] using t
    case h_2 point done slot =>
      have finished := (t.toFollows.finish slot).retire
      rwa [offset] at finished

theorem Tracks.finishedPrefix (t : Tracks w h) : h.finishedPrefix = w.front :=
  History.finishedPrefix_eq t.front_le t.before t.stop

theorem Tracks.hasRetired_iff (t : Tracks w h) (ticket : Nat) :
    w.hasRetired ticket = true ↔ h.Retired ticket := by
  simp only [Watermark.hasRetired, decide_eq_true_eq, History.Retired]
  constructor
  · intro past i hi
    exact t.before i (by omega)
  · intro all
    by_contra notPast
    have issued := t.finished_lt ticket (all ticket (Nat.le_refl _))
    exact t.stop (by omega) (all w.front (by omega))

theorem Tracks.inFlight_eq (t : Tracks w h) :
    w.inFlight = ((List.range h.issued.length).filter fun i => ¬ h.Retired i).length := by
  have le := t.front_le
  obtain ⟨m, hm⟩ := Nat.exists_eq_add_of_le le
  have front_done : (List.range w.front).filter (fun i => ¬ h.Retired i) = [] := by
    rw [List.filter_eq_nil_iff]
    intro i hi
    have : h.Retired i := (t.hasRetired_iff i).mp (by simpa [Watermark.hasRetired] using hi)
    simp [this]
  have rest_open : ((List.range m).map (w.front + ·)).filter (fun i => ¬ h.Retired i) =
      (List.range m).map (w.front + ·) := by
    rw [List.filter_eq_self]
    intro i hi
    obtain ⟨j, -, rfl⟩ := List.mem_map.mp hi
    have : ¬ h.Retired (w.front + j) := by
      rw [← t.hasRetired_iff, Watermark.hasRetired]
      simp
    simp [this]
  rw [Watermark.inFlight, t.pending_length, hm, List.range_add, List.filter_append, front_done,
    rest_open]
  simp

end Watermark

/-! ## Runs -/

inductive Call where
  | begin (point : CursorPoint)
  | complete (ticket : Nat)

namespace Watermark

def step (w : Watermark) : Call → Watermark
  | .begin point => (w.begin point).2
  | .complete ticket => w.complete ticket

def run (calls : List Call) : Watermark := calls.foldl step {}

def ticketsFrom (w : Watermark) : List Call → List Nat
  | [] => []
  | .begin point :: calls => (w.begin point).1 :: (w.begin point).2.ticketsFrom calls
  | .complete ticket :: calls => (w.complete ticket).ticketsFrom calls

def tickets (calls : List Call) : List Nat := ticketsFrom {} calls

end Watermark

namespace History

def step (h : History) : Call → History
  | .begin point => h.begin point
  | .complete ticket => h.complete ticket

def run (calls : List Call) : History := calls.foldl step {}

end History

theorem Watermark.Tracks.step {w : Watermark} {h : History} (t : w.Tracks h) (call : Call) :
    (w.step call).Tracks (h.step call) := by
  cases call with
  | begin point => exact t.begin point
  | complete ticket => exact t.complete ticket

theorem tracks_run (calls : List Call) : (Watermark.run calls).Tracks (History.run calls) := by
  induction calls using List.reverseRecOn with
  | nil => exact Watermark.tracks_empty
  | append_singleton calls call ih =>
    simpa [Watermark.run, History.run] using ih.step call

theorem range_append_ticketsFrom {w : Watermark} {h : History} (t : w.Tracks h)
    (calls : List Call) : List.range h.issued.length ++ w.ticketsFrom calls =
      List.range (calls.foldl History.step h).issued.length := by
  induction calls generalizing w h with
  | nil => simp [Watermark.ticketsFrom]
  | cons call calls ih =>
    have next := ih (t.step call)
    cases call with
    | begin point =>
      rw [Watermark.ticketsFrom, t.begin_ticket, List.foldl_cons, ← next]
      simp [History.step, History.begin, Watermark.step, List.range_succ]
    | complete ticket =>
      rw [Watermark.ticketsFrom, List.foldl_cons, ← next]
      simp [History.step, Watermark.step]

/-- After any sequence of issues and completions, with `h` its full history: the
applied point is that of the last ticket of the longest finished prefix, the tickets
handed out are `0, 1, 2, …`, the count in flight is that of the issued tickets not yet
retired, and a ticket has retired exactly when every ticket up to it has finished. -/
theorem watermark_run (calls : List Call) :
    let w := Watermark.run calls
    let h := History.run calls
    w.applied = (h.issued.take h.finishedPrefix).getLast? ∧
    Watermark.tickets calls = List.range h.issued.length ∧
    (Watermark.tickets calls).Pairwise (· < ·) ∧
    w.inFlight = ((List.range h.issued.length).filter fun i => ¬ h.Retired i).length ∧
    ∀ ticket, w.hasRetired ticket = true ↔ h.Retired ticket := by
  intro w h
  have t : w.Tracks h := tracks_run calls
  have issued : Watermark.tickets calls = List.range h.issued.length := by
    simpa [Watermark.tickets, h, History.run] using
      range_append_ticketsFrom Watermark.tracks_empty calls
  refine ⟨?_, issued, ?_, t.inFlight_eq, t.hasRetired_iff⟩
  · rw [t.finishedPrefix]
    exact t.applied
  · rw [issued]
    exact List.pairwise_lt_range

/-- Tickets finished out of order: the watermark waits for the oldest, then passes all three. -/
example : ((Watermark.run [.begin (.v1 1), .begin (.v1 2), .begin (.v1 3), .complete 1,
    .complete 2]).applied, (Watermark.run [.begin (.v1 1), .begin (.v1 2), .begin (.v1 3),
    .complete 1, .complete 2, .complete 0]).applied) = (none, some (.v1 3)) := by decide

end HappyView.Consumer
