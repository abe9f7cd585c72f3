import HappyView.Foundation.Framing
import Mathlib.Data.Nat.Bitwise
import Mathlib.Tactic.Ring

/-!
# Variable-length numbers

A number in base 128, the lowest group first. The top bit of a byte says that more groups
follow. `exact_read` says that a reader which refuses a padding group accepts the shortest
forms and nothing else.
-/

namespace HappyView.Foundation.Varint

open Framing

def encode (n : Nat) : List UInt8 :=
  if n < 0x80 then [.ofNat n] else (.ofNat n &&& 0x7f ||| 0x80) :: encode (n >>> 7)
termination_by n
decreasing_by
  rw [Nat.shiftRight_eq_div_pow]
  omega

structure Faults (ε : Type) where
  ended : ε
  padded : ε
  long : ε

variable {ε : Type} (faults : Faults ε)

def readByte : StateT (List UInt8) (Except ε) UInt8
  | [] => .error faults.ended
  | byte :: rest => .ok (byte, rest)

/-- The groups from the `i`th on, of which `left` may still come. -/
def readFrom : Nat → Nat → Nat → StateT (List UInt8) (Except ε) Nat
  | 0, _, _ => throw faults.long
  | left + 1, i, value => do
    let byte ← readByte faults
    let value := value ||| (byte &&& 0x7f).toNat <<< (7 * i)
    if byte < 0x80 then
      if byte = 0 ∧ 0 < i then throw faults.padded else return value
    else readFrom left (i + 1) value

def read (maxBytes : Nat) : StateT (List UInt8) (Except ε) Nat := readFrom faults maxBytes 0 0

/-! ## Groups -/

theorem toNat_low (b : UInt8) : (b &&& 0x7f).toNat = b.toNat % 128 := by
  rw [UInt8.toNat_and]
  exact Nat.and_two_pow_sub_one_eq_mod b.toNat 7

theorem toNat_more (b : UInt8) : (b &&& 0x7f ||| 0x80).toNat = b.toNat % 128 + 128 := by
  have low : (b &&& 0x7f).toNat < 2 ^ 7 := by
    rw [toNat_low]
    omega
  rw [UInt8.toNat_or, Nat.or_comm]
  have := Nat.two_pow_add_eq_or_of_lt low 1
  rw [toNat_low] at this ⊢
  have top : (0x80 : UInt8).toNat = 2 ^ 7 * 1 := rfl
  rw [top, ← this]
  omega

theorem or_group {value i : Nat} (group : Nat) (small : value < 2 ^ (7 * i)) :
    value ||| group <<< (7 * i) = value + group * 2 ^ (7 * i) := by
  rw [Nat.or_comm, Nat.shiftLeft_eq, Nat.mul_comm group, ← Nat.two_pow_add_eq_or_of_lt small]
  omega

theorem encode_small {n : Nat} (small : n < 128) : encode n = [.ofNat n] := by
  rw [encode, if_pos small]

theorem encode_group {group n : Nat} (small : group < 128) (pos : 0 < n) :
    encode (group + 128 * n) = .ofNat (group + 128) :: encode n := by
  rw [encode, if_neg (by omega), Nat.shiftRight_eq_div_pow]
  have byte : (.ofNat (group + 128 * n) &&& 0x7f ||| 0x80 : UInt8) = .ofNat (group + 128) := by
    apply UInt8.toNat_inj.mp
    rw [toNat_more, UInt8.toNat_ofNat', UInt8.toNat_ofNat']
    omega
  rw [byte]
  congr 2
  omega

/-! ## Reading -/

theorem two_pow_groups (i : Nat) : 2 ^ (7 * (i + 1)) = 2 ^ (7 * i) * 128 := by
  rw [Nat.mul_succ, Nat.pow_add]

theorem group_lt {value i group : Nat} (small : value < 2 ^ (7 * i)) (low : group < 128) :
    value + group * 2 ^ (7 * i) < 2 ^ (7 * (i + 1)) := by
  have scaled : group * 2 ^ (7 * i) ≤ 127 * 2 ^ (7 * i) := Nat.mul_le_mul_right _ (by omega)
  rw [two_pow_groups]
  omega

theorem group_add (value i group n : Nat) :
    value + group * 2 ^ (7 * i) + n * 2 ^ (7 * (i + 1)) =
      value + (group + 128 * n) * 2 ^ (7 * i) := by
  rw [two_pow_groups]
  ring

theorem readFrom_cons (left i value : Nat) (byte : UInt8) (rest : List UInt8) :
    readFrom faults (left + 1) i value (byte :: rest) =
      if byte.toNat < 128 then
        if byte = 0 ∧ 0 < i then .error faults.padded
        else .ok (value ||| (byte.toNat % 128) <<< (7 * i), rest)
      else readFrom faults left (i + 1) (value ||| (byte.toNat % 128) <<< (7 * i)) rest := by
  have top : byte < 0x80 ↔ byte.toNat < 128 := UInt8.lt_iff_toNat_lt
  rw [← toNat_low]
  simp only [readFrom, bind, StateT.bind, readByte, Except.bind, top]
  split
  · split <;> rfl
  · rfl

theorem readFrom_encode {left i value n : Nat} (rest : List UInt8) (small : value < 2 ^ (7 * i))
    (bound : n < 2 ^ (7 * left)) (plain : i = 0 ∧ 0 < left ∨ 0 < n) :
    readFrom faults left i value (encode n ++ rest) = .ok (value + n * 2 ^ (7 * i), rest) := by
  induction left generalizing i value n with
  | zero =>
    rw [Nat.mul_zero, Nat.pow_zero] at bound
    omega
  | succ left ih =>
    by_cases last : n < 128
    · have byte : (UInt8.ofNat n).toNat = n := by
        rw [UInt8.toNat_ofNat']
        omega
      have kept : ¬ (UInt8.ofNat n = 0 ∧ 0 < i) := by
        rintro ⟨zero, later⟩
        have := congrArg UInt8.toNat zero
        rw [byte] at this
        simp only [UInt8.toNat_zero] at this
        omega
      rw [encode_small last, List.singleton_append, readFrom_cons, byte, if_pos last, if_neg kept,
        Nat.mod_eq_of_lt last, or_group n small]
    · obtain ⟨group, high, low, pos, rfl⟩ :
          ∃ group high, group < 128 ∧ 0 < high ∧ n = group + 128 * high :=
        ⟨n % 128, n / 128, by omega, by omega, by omega⟩
      have byte : (UInt8.ofNat (group + 128)).toNat = group + 128 := by
        rw [UInt8.toNat_ofNat']
        omega
      have within : high < 2 ^ (7 * left) := by
        rw [two_pow_groups] at bound
        omega
      rw [encode_group low pos, List.cons_append, readFrom_cons, byte, if_neg (by omega),
        Nat.add_mod_right, Nat.mod_eq_of_lt low, or_group group small,
        ih (group_lt small low) within (.inr pos), group_add]

theorem readFrom_ok {left i value v : Nat} {input rest : List UInt8} (small : value < 2 ^ (7 * i))
    (h : readFrom faults left i value input = .ok (v, rest)) :
    ∃ n, n < 2 ^ (7 * left) ∧ (i = 0 ∨ 0 < n) ∧ v = value + n * 2 ^ (7 * i) ∧
      input = encode n ++ rest := by
  induction left generalizing i value input with
  | zero => cases h
  | succ left ih =>
    cases input with
    | nil => cases h
    | cons byte input =>
      have room : 1 ≤ 2 ^ (7 * left) := Nat.one_le_two_pow
      rw [readFrom_cons] at h
      split at h
      · rename_i last
        split at h
        · cases h
        · rename_i kept
          cases h
          refine ⟨byte.toNat, ?_, ?_, ?_, ?_⟩
          · rw [two_pow_groups]
            omega
          · by_contra padded
            refine kept ⟨UInt8.toNat_inj.mp ?_, by omega⟩
            simp only [UInt8.toNat_zero]
            omega
          · rw [Nat.mod_eq_of_lt last, or_group _ small]
          · rw [encode_small last, UInt8.ofNat_toNat, List.singleton_append]
      · rename_i more
        have low : byte.toNat % 128 < 128 := by omega
        rw [or_group _ small] at h
        obtain ⟨n, bound, plain, rfl, rfl⟩ := ih (group_lt small low) h
        have pos : 0 < n := by omega
        refine ⟨byte.toNat % 128 + 128 * n, ?_, .inr (by omega), group_add .., ?_⟩
        · rw [two_pow_groups]
          omega
        · have same : byte.toNat % 128 + 128 = byte.toNat := by
            have := byte.toNat_lt
            omega
          rw [encode_group low pos, same, UInt8.ofNat_toNat, List.cons_append]

theorem exact_read (maxBytes : Nat) :
    Exact (read faults (maxBytes + 1)) encode fun n => n < 2 ^ (7 * (maxBytes + 1)) where
  reads n rest bound := by
    rw [read, readFrom_encode faults rest (by simp) bound (.inl ⟨rfl, by omega⟩)]
    simp
  writes input n rest h := by
    obtain ⟨m, bound, -, rfl, rfl⟩ := readFrom_ok faults (by simp) h
    simpa using bound

end HappyView.Foundation.Varint
