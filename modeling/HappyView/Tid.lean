import HappyView.Foundation.Digits
import Mathlib.Algebra.Group.Int.Defs
import Mathlib.Data.String.Basic

/-!
# TIDs

A TID is a 64-bit value, `(microseconds << 10) | clock_id`, in 13 characters of a
base-32 alphabet whose characters are in ascending order. So TIDs compare as strings as
their values do, which revisions and cursors rely on (`tidFromNumber_lt`).

The 13 characters hold 65 bits: a text whose first character stands for 16 or more decodes
with its top bit lost.
-/

namespace HappyView.Tid

open HappyView.Foundation

def base32Sort : List Char := "234567abcdefghijklmnopqrstuvwxyz".toList

def sortChar (digit : Nat) : Char := base32Sort.getD digit '2'

/-- The loop fills the 13 slots from the last to the first, five bits at a time. -/
def encodeBase32Sort (val : Nat) : String :=
  String.ofList ((Digits.digits 32 13 val).map sortChar)

def decodeBase32Sort (tid : String) : Option Nat :=
  if tid.utf8ByteSize ≠ 13 then none
  else tid.toList.foldlM
    (fun val c => (base32Sort.idxOf? c).map fun idx => (val <<< 5) % 2 ^ 64 ||| idx) 0

def tidFromParts (unixMicros clockId : Nat) : String :=
  encodeBase32Sort ((unixMicros <<< 10) % 2 ^ 64 ||| (clockId &&& 0x3ff))

def tidFromUnixMicroseconds (us : Int) : String :=
  encodeBase32Sort (((us % 2 ^ 64).toNat <<< 10) % 2 ^ 64)

def tidToNumber (tid : String) : Option Nat := decodeBase32Sort tid

def tidToUnixMicroseconds (tid : String) : Option Nat := (decodeBase32Sort tid).map (· >>> 10)

def tidFromNumber (val : Nat) : String := encodeBase32Sort val

/-! ## Order -/

theorem sortChar_lt (a b : Nat) (ha : a < 32) (hb : b < 32) :
    sortChar a < sortChar b ↔ a < b := by
  have all : ∀ a b : Fin 32, sortChar a < sortChar b ↔ a < b := by decide +kernel
  exact all ⟨a, ha⟩ ⟨b, hb⟩

theorem mem_tidFromNumber {n : Nat} {c : Char} (h : c ∈ (tidFromNumber n).toList) :
    c ∈ base32Sort := by
  have all : ∀ d : Fin 32, sortChar d ∈ base32Sort := by decide +kernel
  rw [tidFromNumber, encodeBase32Sort, String.toList_ofList] at h
  obtain ⟨d, mem, rfl⟩ := List.mem_map.mp h
  exact all ⟨d, Digits.lt_of_mem_digits (by omega) mem⟩

theorem encodeBase32Sort_lt {m n : Nat} (hm : m < 2 ^ 65) (hn : n < 2 ^ 65) :
    encodeBase32Sort m < encodeBase32Sort n ↔ m < n := by
  have digit {n d : Nat} : d ∈ Digits.digits 32 13 n → d < 32 := Digits.lt_of_mem_digits (by omega)
  rw [String.lt_iff_toList_lt, encodeBase32Sort, encodeBase32Sort,
    String.toList_ofList, String.toList_ofList,
    Digits.map_lt sortChar_lt (fun _ => digit) (fun _ => digit),
    Digits.digits_lt (by omega) (by omega)]

theorem tidFromNumber_lt {m n : Nat} (hm : m < 2 ^ 64) (hn : n < 2 ^ 64) :
    tidFromNumber m < tidFromNumber n ↔ m < n :=
  encodeBase32Sort_lt (by omega) (by omega)

/-! ## Round trip -/

theorem idxOf_sortChar {digit : Nat} (h : digit < 32) :
    base32Sort.idxOf? (sortChar digit) = some digit := by
  have all : ∀ d : Fin 32, base32Sort.idxOf? (sortChar d) = some d.val := by decide +kernel
  exact all ⟨digit, h⟩

theorem utf8Size_sortChar {digit : Nat} (h : digit < 32) : (sortChar digit).utf8Size = 1 := by
  have all : ∀ d : Fin 32, (sortChar d).utf8Size = 1 := by decide +kernel
  exact all ⟨digit, h⟩

/-- Five bits more, of which the lowest 64 in all are kept. -/
theorem shift_or (val : Nat) {digit : Nat} (h : digit < 32) :
    (val <<< 5) % 2 ^ 64 ||| digit = (val * 32 + digit) % 2 ^ 64 := by
  have shifted : (val <<< 5) % 2 ^ 64 = (val % 2 ^ 59) <<< 5 := by
    rw [Nat.shiftLeft_eq, Nat.shiftLeft_eq]
    omega
  rw [shifted, ← Nat.shiftLeft_add_eq_or_of_lt h, Nat.shiftLeft_eq]
  omega

theorem utf8Len_sortChars {ds : List Nat} (small : ∀ d ∈ ds, d < 32) :
    String.utf8Len (ds.map sortChar) = ds.length := by
  induction ds with
  | nil => rfl
  | cons d ds ih =>
    have first := utf8Size_sortChar (small d (by simp))
    have rest := ih fun d h => small d (by simp [h])
    simp [first, rest]

theorem decodeBase32Sort_digits {ds : List Nat} (width : ds.length = 13)
    (small : ∀ d ∈ ds, d < 32) :
    decodeBase32Sort (String.ofList (ds.map sortChar)) = some (Digits.value 32 ds % 2 ^ 64) := by
  have fold (val : Nat) :
    (ds.map sortChar).foldlM (fun val c => (base32Sort.idxOf? c).map fun idx =>
      (val <<< 5) % 2 ^ 64 ||| idx) val =
        some (ds.foldl (fun v d => (v * 32 + d) % 2 ^ 64) val) := by
    clear width
    induction ds generalizing val with
    | nil => rfl
    | cons d ds ih =>
      have digit := small d (by simp)
      simp only [List.map_cons, List.foldlM_cons, idxOf_sortChar digit, Option.map_some,
        shift_or val digit, Option.bind_eq_bind, Option.bind_some, List.foldl_cons]
      exact ih (fun d h => small d (by simp [h])) _
  rw [decodeBase32Sort, if_neg, String.toList_ofList, fold, Digits.foldl_mod]
  rw [String.utf8ByteSize_ofList, utf8Len_sortChars small, width]
  simp

theorem tidToNumber_tidFromNumber {n : Nat} (h : n < 2 ^ 64) :
    tidToNumber (tidFromNumber n) = some n := by
  have small : ∀ d ∈ Digits.digits 32 13 n, d < 32 := fun _ => Digits.lt_of_mem_digits (by omega)
  rw [tidToNumber, tidFromNumber, encodeBase32Sort, decodeBase32Sort_digits (by simp) small,
    Digits.value_digits]
  have fits : n < 32 ^ 13 := by omega
  rw [Nat.mod_eq_of_lt fits, Nat.mod_eq_of_lt h]

theorem eq_sortChar {c : Char} {idx : Nat} (h : base32Sort.idxOf? c = some idx) :
    idx < 32 ∧ c = sortChar idx := by
  obtain ⟨bound, found, -⟩ := List.idxOf?_eq_some_iff.mp h
  refine ⟨bound, ?_⟩
  rw [sortChar, List.getD_eq_getElem?_getD, List.getElem?_eq_getElem bound, found, Option.getD_some]

theorem decodeBase32Sort_eq_some {tid : String} {val : Nat} (h : decodeBase32Sort tid = some val) :
    ∃ n < 2 ^ 65, tid = encodeBase32Sort n ∧ val = n % 2 ^ 64 := by
  have characters (cs : List Char) (start result : Nat)
      (fold : cs.foldlM (fun val c => (base32Sort.idxOf? c).map fun idx =>
        (val <<< 5) % 2 ^ 64 ||| idx) start = some result) :
      ∃ ds : List Nat, (∀ d ∈ ds, d < 32) ∧ cs = ds.map sortChar := by
    induction cs generalizing start with
    | nil => exact ⟨[], by simp, rfl⟩
    | cons c cs ih =>
      rw [List.foldlM_cons] at fold
      obtain ⟨next, first, rest⟩ := Option.bind_eq_some_iff.mp fold
      obtain ⟨idx, index, -⟩ := Option.map_eq_some_iff.mp first
      obtain ⟨small, rfl⟩ := eq_sortChar index
      obtain ⟨ds, smalls, rfl⟩ := ih next rest
      exact ⟨idx :: ds, by simpa using ⟨small, smalls⟩, rfl⟩
  have whole := h
  unfold decodeBase32Sort at h
  split at h
  · cases h
  · rename_i bytes
    obtain ⟨ds, small, chars⟩ := characters _ _ _ h
    obtain rfl : tid = String.ofList (ds.map sortChar) := by rw [← chars, String.ofList_toList]
    have width : ds.length = 13 := by
      rw [String.utf8ByteSize_ofList, utf8Len_sortChars small] at bytes
      omega
    have numeral := Digits.digits_value small
    have bound : Digits.value 32 ds < 2 ^ 65 := by
      rw [← numeral, Digits.value_digits, width]
      exact Nat.mod_lt _ (by omega)
    rw [decodeBase32Sort_digits width small] at whole
    cases whole
    refine ⟨Digits.value 32 ds, bound, ?_, rfl⟩
    rw [encodeBase32Sort, ← width, numeral]

theorem head_encodeBase32Sort {n : Nat} (h : n < 2 ^ 65) :
    (encodeBase32Sort n).toList.head?.all (· ≤ 'j') = true ↔ n < 2 ^ 64 := by
  have last : 'j' = sortChar 15 := by decide
  have digit : n / 32 ^ 12 % 32 < 32 := Nat.mod_lt _ (by omega)
  rw [encodeBase32Sort, String.toList_ofList, List.head?_map, Digits.head?_digits, Option.map_some,
    Option.all_some, decide_eq_true_eq, last, ← not_lt, sortChar_lt 15 _ (by omega) digit]
  omega

theorem tidFromParts_eq (unixMicros clockId : Nat) :
    tidFromParts unixMicros clockId =
      tidFromNumber (unixMicros % 2 ^ 54 * 1024 + clockId % 1024) := by
  have low : clockId &&& 0x3ff = clockId % 2 ^ 10 := Nat.and_two_pow_sub_one_eq_mod clockId 10
  have high : (unixMicros <<< 10) % 2 ^ 64 = (unixMicros % 2 ^ 54) <<< 10 := by
    rw [Nat.shiftLeft_eq, Nat.shiftLeft_eq]
    omega
  have small : clockId % 2 ^ 10 < 2 ^ 10 := Nat.mod_lt _ (by omega)
  rw [tidFromParts, low, high, ← Nat.shiftLeft_add_eq_or_of_lt small, Nat.shiftLeft_eq]
  rfl

/-! ## The codec as an order isomorphism -/

theorem tidFromUnixMicroseconds_eq {us : Int} (nonneg : 0 ≤ us) (small : us < 2 ^ 54) :
    tidFromUnixMicroseconds us = encodeBase32Sort (us.toNat * 2 ^ 10) := by
  have unsigned : (us % 2 ^ 64).toNat = us.toNat := by omega
  have room : us.toNat * 2 ^ 10 < 2 ^ 64 := by omega
  rw [tidFromUnixMicroseconds, unsigned, Nat.shiftLeft_eq, Nat.mod_eq_of_lt room]

/-- The encoding is read back, keeps the order of all 64-bit values, and turns later times
into later TIDs. -/
theorem tid_order_isomorphism :
    (∀ n : UInt64, decodeBase32Sort (encodeBase32Sort n.toNat) = some n.toNat) ∧
    (∀ n m : UInt64, (encodeBase32Sort n.toNat < encodeBase32Sort m.toNat ↔ n < m) ∧
      (encodeBase32Sort n.toNat = encodeBase32Sort m.toNat ↔ n = m)) ∧
    ∀ earlier later : Int, 0 ≤ earlier → earlier < later → later < 2 ^ 54 →
      tidFromUnixMicroseconds earlier < tidFromUnixMicroseconds later := by
  refine ⟨fun n => tidToNumber_tidFromNumber n.toNat_lt, fun n m => ⟨?_, ?_⟩, ?_⟩
  · rw [UInt64.lt_iff_toNat_lt]
    exact tidFromNumber_lt n.toNat_lt m.toNat_lt
  · constructor
    · intro same
      have values := congrArg tidToNumber same
      rw [← tidFromNumber, ← tidFromNumber, tidToNumber_tidFromNumber n.toNat_lt,
        tidToNumber_tidFromNumber m.toNat_lt] at values
      exact UInt64.toNat_inj.mp (Option.some.inj values)
    · rintro rfl
      rfl
  · intro earlier later nonneg before small
    rw [tidFromUnixMicroseconds_eq nonneg (by omega),
      tidFromUnixMicroseconds_eq (by omega) small, encodeBase32Sort_lt (by omega) (by omega)]
    omega

end HappyView.Tid
