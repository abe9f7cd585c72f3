import HappyView.Foundation.Bytes
import HappyView.Foundation.Text

/-!
# The compact CID column

The record tables hold a CID as bytes: a base32 CIDv1 as its binary form, the empty text as no
bytes, and any other text behind a marker byte. `base32_encode` and `base32_decode` move bits
through a buffer, eight at a time on one side and five on the other.
-/

namespace HappyView.Records.CidColumn

open HappyView.Foundation HappyView.Foundation.Bytes

def base32 : List UInt8 :=
  "abcdefghijklmnopqrstuvwxyz234567".toList.map fun c => UInt8.ofNat c.toNat

def cidTextMarker : UInt8 := 0

def letter (value : Nat) : Char := Char.ofNat (base32.getD value 0).toNat

/-- `while bits >= 5`: what the loop pushes, and the bits it leaves. -/
def emit (buffer : Nat) : Nat → List Char × Nat
  | bits + 5 =>
    let (out, left) := emit buffer bits
    (letter ((buffer >>> bits) &&& 31) :: out, left)
  | bits => ([], bits)

-- Fewer than five bits are left in the buffer after a byte, so it never comes near 2 ^ 64.
def base32EncodeFrom (buffer bits : Nat) : List UInt8 → List Char
  | [] => if bits > 0 then [letter ((buffer <<< (5 - bits)) &&& 31)] else []
  | byte :: bytes =>
    let buffer := (buffer <<< 8) ||| byte.toNat
    let (out, bits) := emit buffer (bits + 8)
    out ++ base32EncodeFrom (buffer &&& (2 ^ bits - 1)) bits bytes

def base32Encode (bytes : List UInt8) : String := String.ofList (base32EncodeFrom 0 0 bytes)

def base32DecodeFrom (buffer bits : Nat) : List UInt8 → Option (List UInt8)
  | [] => some []
  | c :: text => do
    let value ← base32.idxOf? c
    let buffer := (buffer <<< 5) ||| value
    let bits := bits + 5
    if bits ≥ 8 then
      let out ← base32DecodeFrom (buffer &&& (2 ^ (bits - 8) - 1)) (bits - 8) text
      return UInt8.ofNat ((buffer >>> (bits - 8)) &&& 255) :: out
    else base32DecodeFrom buffer bits text

/-- The inverse of `base32Encode`. Leftover bits are dropped. -/
def base32Decode (text : String) : Option (List UInt8) := base32DecodeFrom 0 0 (utf8 text)

def binaryCid (text : String) : Option (List UInt8) := do
  let rest ← Text.strip "b" text
  let bytes ← base32Decode rest
  if bytes.head? = some 1 ∧ base32Encode bytes = rest then some bytes else none

def encodeCid (text : String) : List UInt8 :=
  if text.isEmpty then []
  else match binaryCid text with
    | some bytes => bytes
    | none => cidTextMarker :: utf8 text

/-- `String::from_utf8_lossy`: the text that the bytes are, or else one with replacement
characters in it. -/
def fromUtf8Lossy (replaced : List UInt8 → String) (bytes : List UInt8) : String :=
  (fromUtf8 bytes).getD (replaced bytes)

def decodeCid (replaced : List UInt8 → String) : List UInt8 → String
  | [] => ""
  | byte :: bytes =>
    if byte = cidTextMarker then fromUtf8Lossy replaced bytes
    else "b" ++ base32Encode (byte :: bytes)

/-! ## The bits of both sides -/

/-- The byte of a letter, which is ASCII, and what it is read as. -/
theorem letter_read : ∀ value < 32,
    String.utf8EncodeChar (letter value) = [base32.getD value 0] ∧
      base32.idxOf? (base32.getD value 0) = some value := by
  decide

theorem digits_and (width n : Nat) :
    Digits.digits 2 width (n &&& (2 ^ width - 1)) = Digits.digits 2 width n := by
  rw [Nat.and_two_pow_sub_one_eq_mod, Digits.digits_mod]

theorem digits_shiftLeft_or (width bits buffer : Nat) {n : Nat} (small : n < 2 ^ width) :
    Digits.digits 2 (bits + width) ((buffer <<< width) ||| n) =
      Digits.digits 2 bits buffer ++ Digits.digits 2 width n := by
  have high : (buffer * 2 ^ width + n) / 2 ^ width = buffer := by
    rw [Nat.mul_comm, Nat.mul_add_div (Nat.two_pow_pos width), Nat.div_eq_of_lt small,
      Nat.add_zero]
  have low : (buffer * 2 ^ width + n) % 2 ^ width = n := by
    rw [Nat.mul_comm, Nat.mul_add_mod, Nat.mod_eq_of_lt small]
  rw [← Nat.shiftLeft_add_eq_or_of_lt small, Nat.shiftLeft_eq, Digits.digits_add, high,
    ← Digits.digits_mod 2 width (buffer * 2 ^ width + n), low]

theorem digits_shiftRight (width bits buffer : Nat) :
    Digits.digits 2 (width + bits) buffer =
      Digits.digits 2 width ((buffer >>> bits) &&& (2 ^ width - 1)) ++
        Digits.digits 2 bits buffer := by
  rw [Digits.digits_add, digits_and, Nat.shiftRight_eq_div_pow]

structure Spells (out : List Char) (values : List Nat) : Prop where
  small : ∀ value ∈ values, value < 32
  letters : out = values.map letter

theorem Spells.append {out more : List Char} {values others : List Nat} (first : Spells out values)
    (second : Spells more others) : Spells (out ++ more) (values ++ others) where
  small := by
    intro value mem
    exact (List.mem_append.mp mem).elim (first.small value) (second.small value)
  letters := by rw [first.letters, second.letters, List.map_append]

theorem and_31_lt (n : Nat) : n &&& 31 < 32 := Nat.and_lt_two_pow (n := 5) n (by omega)

theorem emit_spells (buffer bits : Nat) :
    (emit buffer bits).2 < 5 ∧ ∃ values, Spells (emit buffer bits).1 values ∧
      Digits.digits 2 bits buffer =
        Digits.spread 2 5 values ++ Digits.digits 2 (emit buffer bits).2 buffer := by
  fun_induction emit buffer bits with
  | case1 bits out left more ih =>
    rw [more] at ih
    obtain ⟨few, values, spells, same⟩ := ih
    refine ⟨few, ((buffer >>> bits) &&& 31) :: values, ⟨?_, ?_⟩, ?_⟩
    · exact List.forall_mem_cons.mpr ⟨and_31_lt _, spells.small⟩
    · exact congrArg _ spells.letters
    · have window := digits_shiftRight 5 bits buffer
      rw [Nat.add_comm 5 bits] at window
      rw [Digits.spread_cons, List.append_assoc, ← same]
      exact window
  | case2 bits few =>
    refine ⟨?_, [], ⟨nofun, rfl⟩, rfl⟩
    by_contra many
    exact few (bits - 5) (Nat.sub_add_cancel (Nat.le_of_not_lt many)).symm

theorem base32EncodeFrom_spells (buffer bits : Nat) (few : bits < 5) (bytes : List UInt8) :
    ∃ values padding, Spells (base32EncodeFrom buffer bits bytes) values ∧ padding.length < 5 ∧
      Digits.digits 2 bits buffer ++ Digits.spread 2 8 (bytes.map UInt8.toNat) ++ padding =
        Digits.spread 2 5 values := by
  induction bytes generalizing buffer bits with
  | nil =>
    unfold base32EncodeFrom
    split
    · -- The last bits of the buffer, filled up with zeros.
      next some =>
      refine ⟨[(buffer <<< (5 - bits)) &&& 31], Digits.digits 2 (5 - bits) 0, ⟨?_, rfl⟩, ?_, ?_⟩
      · simpa using and_31_lt _
      · rw [Digits.length_digits]
        omega
      · have shifted := digits_shiftLeft_or (5 - bits) bits buffer
          (Nat.two_pow_pos (5 - bits))
        rw [Nat.add_sub_of_le few.le, Nat.or_zero, ← digits_and] at shifted
        simpa [Digits.spread] using shifted.symm
    · next none =>
      obtain rfl : bits = 0 := by omega
      exact ⟨[], [], ⟨by simp, rfl⟩, by decide, rfl⟩
  | cons byte bytes ih =>
    obtain ⟨left, values, spells, same⟩ := emit_spells ((buffer <<< 8) ||| byte.toNat) (bits + 8)
    obtain ⟨others, padding, more, short, rest⟩ :=
      ih (((buffer <<< 8) ||| byte.toNat) &&& (2 ^ (emit _ (bits + 8)).2 - 1)) _ left
    refine ⟨values ++ others, padding, spells.append more, short, ?_⟩
    rw [digits_shiftLeft_or 8 bits buffer byte.toNat_lt] at same
    rw [digits_and] at rest
    rw [Digits.spread_append, ← rest, ← List.append_assoc, ← List.append_assoc, ← same,
      List.map_cons, Digits.spread_cons, ← List.append_assoc]

theorem base32DecodeFrom_values (buffer bits : Nat) (few : bits < 8) {values : List Nat}
    (small : ∀ value ∈ values, value < 32) :
    ∃ bytes left, base32DecodeFrom buffer bits (values.map (base32.getD · 0)) = some bytes ∧
      left.length < 8 ∧ Digits.spread 2 8 (bytes.map UInt8.toNat) ++ left =
        Digits.digits 2 bits buffer ++ Digits.spread 2 5 values := by
  induction values generalizing buffer bits with
  | nil =>
    refine ⟨[], Digits.digits 2 bits buffer, rfl, by simpa using few, ?_⟩
    simp [Digits.spread]
  | cons value values ih =>
    obtain ⟨first, others⟩ := List.forall_mem_cons.mp small
    have pushed := digits_shiftLeft_or 5 bits buffer first
    rw [List.map_cons, base32DecodeFrom, (letter_read value first).2, Option.bind_eq_bind,
      Option.bind_some]
    by_cases full : bits + 5 ≥ 8
    · obtain ⟨bytes, left, read, short, same⟩ :=
        ih (((buffer <<< 5) ||| value) &&& (2 ^ (bits + 5 - 8) - 1)) (bits + 5 - 8)
          (by omega) others
      refine ⟨_, left, by simp only [if_pos full, read]; rfl, short, ?_⟩
      have taken := digits_shiftRight 8 (bits + 5 - 8) ((buffer <<< 5) ||| value)
      have byte : ((buffer <<< 5) ||| value) >>> (bits + 5 - 8) &&& 255 < 256 :=
        Nat.and_lt_two_pow (n := 8) _ (by omega)
      rw [Nat.add_sub_of_le full, pushed] at taken
      rw [digits_and] at same
      rw [List.map_cons, Digits.spread_cons, UInt8.toNat_ofNat', Nat.mod_eq_of_lt byte,
        List.append_assoc, same, Digits.spread_cons, ← List.append_assoc, ← List.append_assoc,
        taken]
      rfl
    · obtain ⟨bytes, left, read, short, same⟩ := ih ((buffer <<< 5) ||| value)
        (bits + 5) (by omega) others
      refine ⟨bytes, left, by simpa only [if_neg full] using read, short, ?_⟩
      rw [same, pushed, List.append_assoc, Digits.spread_cons]

theorem utf8_letters {values : List Nat} (small : ∀ value ∈ values, value < 32) :
    utf8 (String.ofList (values.map letter)) = values.map (base32.getD · 0) := by
  rw [utf8_ofList]
  induction values with
  | nil => rfl
  | cons value values ih =>
    obtain ⟨first, others⟩ := List.forall_mem_cons.mp small
    rw [List.map_cons, List.flatMap_cons, (letter_read value first).1, ih others]
    rfl

theorem base32Decode_base32Encode (bytes : List UInt8) :
    base32Decode (base32Encode bytes) = some bytes := by
  obtain ⟨values, padding, spells, short, written⟩ :=
    base32EncodeFrom_spells 0 0 (by decide) bytes
  obtain ⟨found, left, read, few, same⟩ := base32DecodeFrom_values 0 0 (by decide)
    spells.small
  rw [base32Decode, base32Encode, spells.letters, utf8_letters spells.small, read]
  rw [← written] at same
  have bytes_eq := Digits.spread_append_inj (toNat_lt_of_mem found) (toNat_lt_of_mem bytes)
    few (by omega) same
  exact congrArg some (List.map_injective_iff.mpr (fun _ _ => UInt8.toNat_inj.mp) bytes_eq)

/-! ## The column -/

theorem binaryCid_eq_some {text : String} {bytes : List UInt8} :
    binaryCid text = some bytes ↔ bytes.head? = some 1 ∧ text = "b" ++ base32Encode bytes := by
  constructor
  · intro found
    obtain ⟨rest, stripped, found⟩ := Option.bind_eq_some_iff.mp found
    obtain ⟨decoded, -, found⟩ := Option.bind_eq_some_iff.mp found
    split at found
    · next canonical =>
      cases found
      exact ⟨canonical.1, canonical.2 ▸ Text.strip_eq_some.mp stripped⟩
    · cases found
  · rintro ⟨version, rfl⟩
    simp [binaryCid, base32Decode_base32Encode, version]

theorem encodeCid_cases (text : String) :
    (text = "" ∧ encodeCid text = []) ∨ binaryCid text = some (encodeCid text) ∨
      (text ≠ "" ∧ binaryCid text = none ∧ encodeCid text = cidTextMarker :: utf8 text) := by
  by_cases empty : text = ""
  · exact .inl ⟨empty, by simp [encodeCid, empty]⟩
  · cases found : binaryCid text with
    | some bytes => exact .inr (.inl (by simp [encodeCid, empty, found]))
    | none => exact .inr (.inr ⟨empty, rfl, by simp [encodeCid, empty, found]⟩)

/-- The texts that spell a binary form, and no others, are stored as it. -/
theorem encodeCid_eq_binary_iff {text : String} {bytes : List UInt8} :
    encodeCid text = 1 :: bytes ↔ text = "b" ++ base32Encode (1 :: bytes) := by
  constructor
  · intro stored
    obtain ⟨-, same⟩ | found | ⟨-, -, same⟩ := encodeCid_cases text
    · cases same.symm.trans stored
    · rw [stored] at found
      exact (binaryCid_eq_some.mp found).2
    · cases same.symm.trans stored
  · intro spelled
    have binary : binaryCid text = some (1 :: bytes) := binaryCid_eq_some.mpr ⟨rfl, spelled⟩
    obtain ⟨empty, -⟩ | found | ⟨-, absent, -⟩ := encodeCid_cases text
    · simp [empty] at spelled
    · exact Option.some.inj (found.symm.trans binary)
    · cases absent.symm.trans binary

theorem decodeCid_encodeCid (replaced : List UInt8 → String) (text : String) :
    decodeCid replaced (encodeCid text) = text := by
  obtain ⟨empty, same⟩ | found | ⟨-, -, same⟩ := encodeCid_cases text
  · rw [same, empty]
    rfl
  · -- The first byte is no marker, and the check has compared the text with what is spelled here.
    obtain ⟨version, spelled⟩ := binaryCid_eq_some.mp found
    obtain ⟨rest, stored⟩ := List.head?_eq_some_iff.mp version
    rw [stored] at spelled ⊢
    rw [decodeCid, if_neg (by decide), ← spelled]
  · rw [same, decodeCid, if_pos rfl, fromUtf8Lossy, fromUtf8_utf8, Option.getD_some]

/-- Every text is read back from its column, so no two texts share one. -/
theorem cid_column_faithful (replaced : List UInt8 → String) :
    (∀ text, decodeCid replaced (encodeCid text) = text) ∧ Function.Injective encodeCid :=
  ⟨decodeCid_encodeCid replaced, Function.LeftInverse.injective (decodeCid_encodeCid replaced)⟩

end HappyView.Records.CidColumn
