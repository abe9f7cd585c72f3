import Mathlib.Algebra.Group.Nat.Defs
import Mathlib.Data.List.Basic
import Mathlib.Data.List.Induction
import Mathlib.Data.Nat.Basic
import Mathlib.Order.Lattice

/-!
# Fixed-width numerals

The digits of a number in a base, the highest first and always the same number of them.
Numerals of one width compare as their numbers do when they are compared place by place
from the left, which is what makes sortable codes of them.
-/

namespace HappyView.Foundation.Digits

/-- The `width` lowest digits of `n` in base `b`. -/
def digits (b : Nat) : Nat → Nat → List Nat
  | 0, _ => []
  | width + 1, n => digits b width (n / b) ++ [n % b]

def value (b : Nat) (ds : List Nat) : Nat := ds.foldl (fun v d => v * b + d) 0

@[simp] theorem length_digits (b width n : Nat) : (digits b width n).length = width := by
  induction width generalizing n with
  | zero => rfl
  | succ width ih => simp [digits, ih]

theorem lt_of_mem_digits {b width n d : Nat} (pos : 0 < b) (h : d ∈ digits b width n) : d < b := by
  induction width generalizing n with
  | zero => cases h
  | succ width ih =>
    rcases List.mem_append.mp h with high | low
    · exact ih high
    · rw [List.mem_singleton.mp low]
      exact Nat.mod_lt n pos

theorem value_append (b : Nat) (ds : List Nat) (d : Nat) :
    value b (ds ++ [d]) = value b ds * b + d := by
  simp [value]

theorem value_digits (b width n : Nat) : value b (digits b width n) = n % b ^ width := by
  induction width generalizing n with
  | zero => simp [digits, value, Nat.mod_one]
  | succ width ih =>
    rw [digits, value_append, ih, Nat.pow_succ', Nat.mod_mul, Nat.mul_comm, Nat.add_comm]

theorem foldl_mod (b m : Nat) (ds : List Nat) :
    ds.foldl (fun v d => (v * b + d) % m) 0 = value b ds % m := by
  induction ds using List.reverseRecOn with
  | nil => simp [value]
  | append_singleton ds d ih =>
    rw [value_append, List.foldl_append, ih]
    simp [Nat.add_mod, Nat.mul_mod]

theorem digits_inj {b width m n : Nat} (hm : m < b ^ width) (hn : n < b ^ width) :
    digits b width m = digits b width n ↔ m = n := by
  constructor
  · intro same
    have values := congrArg (value b) same
    rwa [value_digits, value_digits, Nat.mod_eq_of_lt hm, Nat.mod_eq_of_lt hn] at values
  · rintro rfl
    rfl

theorem digits_value {b : Nat} {ds : List Nat} (small : ∀ d ∈ ds, d < b) :
    digits b ds.length (value b ds) = ds := by
  induction ds using List.reverseRecOn with
  | nil => rfl
  | append_singleton ds d ih =>
    have last : d < b := small d (by simp)
    have front := ih fun d mem => small d (by simp [mem])
    rw [List.length_append, List.length_singleton, digits, value_append, Nat.mul_comm,
      Nat.mul_add_div (by omega), Nat.div_eq_of_lt last, Nat.mul_add_mod, Nat.mod_eq_of_lt last,
      Nat.add_zero, front]

theorem value_lt {b : Nat} (pos : 0 < b) {ds : List Nat} (small : ∀ d ∈ ds, d < b) :
    value b ds < b ^ ds.length := by
  have same := congrArg (value b) (digits_value small)
  rw [value_digits] at same
  rw [← same]
  exact Nat.mod_lt _ (Nat.pow_pos pos)

theorem head?_digits (b width n : Nat) :
    (digits b (width + 1) n).head? = some (n / b ^ width % b) := by
  induction width generalizing n with
  | zero => simp [digits]
  | succ width ih =>
    rw [digits, List.head?_append, ih, Nat.div_div_eq_div_mul, Nat.pow_succ']
    rfl

theorem digits_mod (b width n : Nat) : digits b width (n % b ^ width) = digits b width n := by
  induction width generalizing n with
  | zero => rfl
  | succ width ih =>
    rw [digits, digits, Nat.pow_succ', Nat.mod_mul_right_div_self, ih, Nat.mod_mul_right_mod]

theorem digits_add (b v w n : Nat) :
    digits b (v + w) n = digits b v (n / b ^ w) ++ digits b w n := by
  induction w generalizing n with
  | zero => simp [digits]
  | succ w ih =>
    rw [← Nat.add_assoc, digits, ih, digits, List.append_assoc, Nat.div_div_eq_div_mul,
      Nat.pow_succ']

/-! ## Numbers of one width in a row -/

/-- The digits of numbers of `width` digits each. -/
def spread (b width : Nat) (ns : List Nat) : List Nat := ns.flatMap (digits b width)

theorem spread_cons (b width n : Nat) (ns : List Nat) :
    spread b width (n :: ns) = digits b width n ++ spread b width ns := List.flatMap_cons

theorem spread_append (b width : Nat) (ms ns : List Nat) :
    spread b width (ms ++ ns) = spread b width ms ++ spread b width ns := List.flatMap_append

theorem length_spread (b width : Nat) (ns : List Nat) :
    (spread b width ns).length = ns.length * width := by
  simp [spread]

theorem spread_inj {b width : Nat} {ms ns : List Nat} (hm : ∀ m ∈ ms, m < b ^ width)
    (hn : ∀ n ∈ ns, n < b ^ width) (length : ms.length = ns.length)
    (same : spread b width ms = spread b width ns) : ms = ns := by
  induction ms generalizing ns with
  | nil => exact (List.length_eq_zero_iff.mp length.symm).symm
  | cons m ms ih =>
    obtain _ | ⟨n, ns⟩ := ns
    · cases length
    · obtain ⟨hm, hms⟩ := List.forall_mem_cons.mp hm
      obtain ⟨hn, hns⟩ := List.forall_mem_cons.mp hn
      obtain ⟨first, others⟩ := List.append_inj same (by simp)
      rw [(digits_inj hm hn).mp first, ih hms hns (by simpa using length) others]

theorem spread_append_inj {b width : Nat} {ms ns xs ys : List Nat} (hm : ∀ m ∈ ms, m < b ^ width)
    (hn : ∀ n ∈ ns, n < b ^ width) (hx : xs.length < width) (hy : ys.length < width)
    (same : spread b width ms ++ xs = spread b width ns ++ ys) : ms = ns := by
  have lengths : ms.length = ns.length := by
    have total := congrArg List.length same
    rw [List.length_append, List.length_append, length_spread, length_spread] at total
    have front : ms.length = (ms.length * width + xs.length) / width := by
      rw [Nat.mul_comm, Nat.mul_add_div (by omega), Nat.div_eq_of_lt hx, Nat.add_zero]
    rw [front, total, Nat.mul_comm, Nat.mul_add_div (by omega), Nat.div_eq_of_lt hy, Nat.add_zero]
  have fronts := List.append_inj_left same (by rw [length_spread, length_spread, lengths])
  exact spread_inj hm hn lengths fronts

/-! ## Order -/

section

variable {α : Type*} [LinearOrder α]

theorem append_lt {xs ys as bs : List α} (h : xs.length = ys.length) :
    xs ++ as < ys ++ bs ↔ xs < ys ∨ (xs = ys ∧ as < bs) := by
  induction xs generalizing ys with
  | nil =>
    obtain rfl := List.length_eq_zero_iff.mp h.symm
    simp
  | cons a xs ih =>
    cases ys with
    | nil => cases h
    | cons b ys =>
      simp only [List.cons_append, List.cons_lt_cons_iff, List.cons.injEq]
      rw [ih (Nat.succ.inj h)]
      grind

theorem map_lt {β : Type*} [LinearOrder β] {f : α → β} {p : α → Prop}
    (mono : ∀ a b, p a → p b → (f a < f b ↔ a < b)) {xs ys : List α} (hx : ∀ a ∈ xs, p a)
    (hy : ∀ b ∈ ys, p b) : xs.map f < ys.map f ↔ xs < ys := by
  induction xs generalizing ys with
  | nil => cases ys <;> simp
  | cons a xs ih =>
    cases ys with
    | nil => simp
    | cons b ys =>
      have ha := hx a (by simp)
      have hb := hy b (by simp)
      have same : f a = f b ↔ a = b := by
        constructor
        · intro eq
          have notBelow := mt (mono a b ha hb).mpr (by simp [eq])
          have notAbove := mt (mono b a hb ha).mpr (by simp [eq])
          exact le_antisymm (not_lt.mp notAbove) (not_lt.mp notBelow)
        · rintro rfl
          rfl
      rw [List.map_cons, List.map_cons, List.cons_lt_cons_iff, List.cons_lt_cons_iff,
        mono a b ha hb, same,
        ih (fun a h => hx a (by simp [h])) (fun b h => hy b (by simp [h]))]

end

theorem lt_iff_div_mod {b : Nat} (pos : 0 < b) (m n : Nat) :
    m < n ↔ m / b < n / b ∨ (m / b = n / b ∧ m % b < n % b) := by
  have hm := Nat.div_add_mod m b
  have hn := Nat.div_add_mod n b
  have rm := Nat.mod_lt m pos
  have rn := Nat.mod_lt n pos
  rcases Nat.lt_trichotomy (m / b) (n / b) with lt | eq | gt
  · have step : b * (m / b + 1) ≤ b * (n / b) := Nat.mul_le_mul_left b lt
    rw [Nat.mul_succ] at step
    omega
  · rw [eq] at hm
    omega
  · have step : b * (n / b + 1) ≤ b * (m / b) := Nat.mul_le_mul_left b gt
    rw [Nat.mul_succ] at step
    omega

theorem digits_lt {b width m n : Nat} (hm : m < b ^ width) (hn : n < b ^ width) :
    digits b width m < digits b width n ↔ m < n := by
  induction width generalizing m n with
  | zero =>
    have : m = n := by
      rw [Nat.pow_zero] at hm hn
      omega
    simp [this]
  | succ width ih =>
    have pos : 0 < b := by
      rcases Nat.eq_zero_or_pos b with rfl | pos
      · simp at hm
      · exact pos
    have hm' : m / b < b ^ width := by
      rw [Nat.div_lt_iff_lt_mul pos, ← Nat.pow_succ]
      exact hm
    have hn' : n / b < b ^ width := by
      rw [Nat.div_lt_iff_lt_mul pos, ← Nat.pow_succ]
      exact hn
    rw [digits, digits, append_lt (by simp), ih hm' hn', digits_inj hm' hn', List.cons_lt_cons_iff,
      lt_iff_div_mod pos m n]
    simp

end HappyView.Foundation.Digits
