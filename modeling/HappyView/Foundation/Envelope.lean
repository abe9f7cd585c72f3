import Mathlib.Algebra.BigOperators.Group.List.Basic
import Mathlib.Algebra.Order.Ring.Defs
import Mathlib.Tactic.Linarith

/-!
# Envelopes

A log of charges, each at a time, lies under an envelope when no stretch of time holds more than
a burst and a rate times its length. What keeps a log there is a level that grows with time at the
rate, up to the burst, and that every charge is taken from: `Envelope` says so of a log and the
level after it, and the three rules say how time and charges move it on.
-/

namespace HappyView.Foundation

section Spent

variable {K : Type*} [AddCommMonoid K]

/-- What the log charges at the times that satisfy `p`. -/
def spent (log : List (K × K)) (p : K → Prop) [DecidablePred p] : K :=
  ((log.filter (p ·.1)).map (·.2)).sum

theorem spent_concat (log : List (K × K)) (time cost : K) (p : K → Prop) [DecidablePred p] :
    spent (log ++ [(time, cost)]) p = spent log p + if p time then cost else 0 := by
  by_cases counted : p time <;> simp [spent, counted]

theorem spent_congr {log : List (K × K)} {p q : K → Prop} [DecidablePred p] [DecidablePred q]
    (same : ∀ charge ∈ log, p charge.1 ↔ q charge.1) : spent log p = spent log q := by
  unfold spent
  have filters : log.filter (p ·.1) = log.filter (q ·.1) :=
    List.filter_congr fun charge mem => by simpa using same charge mem
  rw [filters]

theorem spent_eq_zero {log : List (K × K)} {p : K → Prop} [DecidablePred p]
    (none : ∀ charge ∈ log, ¬ p charge.1) : spent log p = 0 := by
  unfold spent
  rw [List.filter_eq_nil_iff.mpr fun charge mem => by simpa using none charge mem]
  rfl

end Spent

variable {K : Type*} [CommRing K] [LinearOrder K] [IsStrictOrderedRing K]

/-- The charges of the log are no later than `now`, and `level` can be charged at once. -/
structure Envelope (burst rate : K) (log : List (K × K)) (now level : K) : Prop where
  past : ∀ charge ∈ log, charge.1 ≤ now
  since : ∀ start ≤ now, spent log (start ≤ ·) + level ≤ burst + rate * (now - start)
  window : ∀ start stop, start ≤ stop →
    spent log (fun time => start ≤ time ∧ time ≤ stop) ≤ burst + rate * (stop - start)

namespace Envelope

variable {burst rate now level : K} {log : List (K × K)}

theorem empty (burst_nonneg : 0 ≤ burst) (rate_nonneg : 0 ≤ rate) (full : level ≤ burst) :
    Envelope burst rate [] now level where
  past := by simp
  since start before := by
    have grown := mul_nonneg rate_nonneg (sub_nonneg.mpr before)
    simpa [spent] using by linarith
  window start stop before := by
    have grown := mul_nonneg rate_nonneg (sub_nonneg.mpr before)
    simpa [spent] using by linarith

theorem wait (env : Envelope burst rate log now level) (rate_nonneg : 0 ≤ rate) {later level' : K}
    (order : now ≤ later) (capped : level' ≤ burst)
    (grown : level' ≤ level + rate * (later - now)) : Envelope burst rate log later level' where
  past charge mem := (env.past charge mem).trans order
  since start before := by
    rcases le_or_gt start now with old | new
    · have bound := env.since start old
      linarith
    · -- Nothing has been charged since.
      have none : spent log (start ≤ ·) = 0 :=
        spent_eq_zero fun charge mem after => absurd (after.trans (env.past charge mem)) new.not_ge
      have more := mul_nonneg rate_nonneg (sub_nonneg.mpr before)
      linarith
  window := env.window

theorem charge (env : Envelope burst rate log now level) (rate_nonneg : 0 ≤ rate) {cost : K}
    (enough : cost ≤ level) : Envelope burst rate (log ++ [(now, cost)]) now (level - cost) where
  past charge mem := by
    rcases List.mem_append.mp mem with old | new
    · exact env.past charge old
    · rw [List.mem_singleton.mp new]
  since start before := by
    have bound := env.since start before
    rw [spent_concat, if_pos before]
    linarith
  window start stop before := by
    rw [spent_concat]
    split
    · rename_i within
      -- All that is charged since the start is charged before the stop.
      have all : spent log (fun time => start ≤ time ∧ time ≤ stop) = spent log (start ≤ ·) :=
        spent_congr fun charge mem =>
          and_iff_left ((env.past charge mem).trans within.2)
      have bound := env.since start within.1
      have more := mul_le_mul_of_nonneg_left (sub_le_sub_right within.2 start) rate_nonneg
      linarith
    · have bound := env.window start stop before
      linarith

end Envelope

end HappyView.Foundation
