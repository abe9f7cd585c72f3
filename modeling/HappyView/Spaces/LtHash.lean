import Mathlib.Algebra.BigOperators.Group.List.Basic
import Mathlib.Algebra.Group.Pi.Basic
import Mathlib.Data.BitVec
import Mathlib.Data.List.OfFn

/-!
# The set hash of a repo

1024 lanes of 16 bits, stored as bytes, the low one of each lane first. Adding an element
adds its lanes modulo `2 ^ 16` and removing it subtracts them, so what a repo's records come
to depends on which they are and not on the order they are added in.
-/

namespace HappyView.Spaces

def numLanes : Nat := 1024

def stateBytes : Nat := numLanes * 2

abbrev LtHashState := Fin numLanes → BitVec 16

namespace LtHashState

def new : LtHashState := fun _ => 0

def add (s element : LtHashState) : LtHashState := fun i => s i + element i

def remove (s element : LtHashState) : LtHashState := fun i => s i - element i

theorem new_eq : new = 0 := rfl

theorem add_eq (s element : LtHashState) : s.add element = s + element := rfl

theorem remove_eq (s element : LtHashState) : s.remove element = s - element := rfl

def lane (j : Fin stateBytes) : Fin numLanes := ⟨j / 2, by
  have := j.isLt
  unfold stateBytes at this
  omega⟩

def asBytes (s : LtHashState) : List UInt8 :=
  List.ofFn fun j : Fin stateBytes =>
    if j.val % 2 = 0 then ⟨(s (lane j)).extractLsb' 0 8⟩ else ⟨(s (lane j)).extractLsb' 8 8⟩

def fromBytes (bytes : List UInt8) : LtHashState := fun i =>
  (bytes.getD (i * 2 + 1) 0).toBitVec ++ (bytes.getD (i * 2) 0).toBitVec

@[simp] theorem length_asBytes (s : LtHashState) : s.asBytes.length = stateBytes := by
  simp [asBytes]

theorem getD_asBytes (s : LtHashState) (j : Fin stateBytes) : s.asBytes.getD j 0 =
    if j.val % 2 = 0 then ⟨(s (lane j)).extractLsb' 0 8⟩ else ⟨(s (lane j)).extractLsb' 8 8⟩ := by
  have : j.val < s.asBytes.length := by simp
  rw [List.getD_eq_getElem?_getD, List.getElem?_eq_getElem this, Option.getD_some]
  simp [asBytes]

@[simp] theorem fromBytes_asBytes (s : LtHashState) : fromBytes s.asBytes = s := by
  funext i
  have bound : i.val * 2 + 1 < stateBytes := by
    have := i.isLt
    unfold stateBytes
    omega
  have low := getD_asBytes s ⟨i * 2, by omega⟩
  have high := getD_asBytes s ⟨i * 2 + 1, bound⟩
  have even : lane ⟨i * 2, by omega⟩ = i := Fin.ext (by simp [lane])
  have odd : lane ⟨i * 2 + 1, bound⟩ = i := Fin.ext (by simp [lane]; omega)
  have lowBit : i.val * 2 % 2 = 0 := by omega
  have highBit : ¬ (i.val * 2 + 1) % 2 = 0 := by omega
  simp only [even, lowBit, if_true] at low
  simp only [odd, highBit, if_false] at high
  rw [fromBytes, low, high]
  exact BitVec.extractLsb'_append_extractLsb'

theorem asBytes_zero : asBytes 0 = List.replicate stateBytes 0 := by
  refine List.eq_replicate_iff.mpr ⟨length_asBytes 0, fun byte mem => ?_⟩
  obtain ⟨j, rfl⟩ := List.mem_ofFn.mp mem
  split <;> simp

end LtHashState

def foldElements {ρ : Type} (element : ρ → LtHashState) (records : List ρ) : LtHashState :=
  records.foldl (fun s r => s.add (element r)) .new

theorem foldElements_eq {ρ : Type} (element : ρ → LtHashState) (records : List ρ) :
    foldElements element records = (records.map element).sum := by
  rw [foldElements, LtHashState.new_eq, List.sum_eq_foldl, List.foldl_map]
  rfl

theorem foldElements_perm {ρ : Type} {element : ρ → LtHashState} {records records' : List ρ}
    (perm : records.Perm records') :
    foldElements element records = foldElements element records' := by
  rw [foldElements_eq, foldElements_eq]
  exact (perm.map element).sum_eq

end HappyView.Spaces
