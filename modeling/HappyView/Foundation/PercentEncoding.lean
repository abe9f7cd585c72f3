import HappyView.Foundation.Bytes
import Mathlib.Data.List.Basic

/-!
# Percent-encoding

The encoding of a text for a place in a URI: letters, digits and four marks stand for themselves,
and every other byte of the text's UTF-8 is written as `%` and two hexadecimal digits.
-/

namespace HappyView.Foundation.Percent

/-- Letters, digits, `-`, `.`, `_` and `~`. -/
def unreserved (b : UInt8) : Bool :=
  (48 ≤ b && b ≤ 57) || (65 ≤ b && b ≤ 90) || (97 ≤ b && b ≤ 122) ||
    b == 45 || b == 46 || b == 95 || b == 126

def ascii (b : UInt8) : Char := Char.ofNat b.toNat

def hexDigit (value : UInt8) : UInt8 := if value < 10 then 48 + value else 55 + value

def hexValue (b : UInt8) : Option UInt8 :=
  if 48 ≤ b && b ≤ 57 then some (b - 48)
  else if 65 ≤ b && b ≤ 70 then some (b - 55)
  else if 97 ≤ b && b ≤ 102 then some (b - 87)
  else none

def encodeByte (b : UInt8) : List UInt8 :=
  if unreserved b then [b] else [37, hexDigit (b / 16), hexDigit (b % 16)]

def encode (s : String) : String :=
  String.ofList (((Bytes.utf8 s).flatMap encodeByte).map ascii)

def pair (high low : UInt8) : Option UInt8 :=
  match hexValue high, hexValue low with
  | some a, some b => some (a * 16 + b)
  | _, _ => none

def decodeBytes : List UInt8 → List UInt8
  | [] => []
  | 37 :: high :: low :: rest =>
    match pair high low with
    | some b => b :: decodeBytes rest
    | none => 37 :: decodeBytes (high :: low :: rest)
  | b :: rest => b :: decodeBytes rest

def decode (s : String) : Option String := String.fromUTF8? ⟨(decodeBytes (Bytes.utf8 s)).toArray⟩

/-! ## One byte -/

def plain (c : Char) : Bool := c.toNat < 128 && unreserved (UInt8.ofNat c.toNat)

/-- What stands for a byte, case by case: it is ASCII, so each character is the byte it stands
for; two digits are read back; its characters are plain or `%`. And the byte of a plain
character stands for itself. -/
structure Written (b : UInt8) : Prop where
  isAscii : ((encodeByte b).map ascii).flatMap String.utf8EncodeChar = encodeByte b
  digits : pair (hexDigit (b / 16)) (hexDigit (b % 16)) = some b
  characters : ((encodeByte b).all fun c => plain (ascii c) || ascii c == '%') = true
  itself : unreserved b = true →
    (String.utf8EncodeChar (ascii b)).flatMap encodeByte = String.utf8EncodeChar (ascii b)

theorem written (b : UInt8) : Written b := by
  have cases : ∀ n < 256,
      ((encodeByte (.ofNat n)).map ascii).flatMap String.utf8EncodeChar = encodeByte (.ofNat n) ∧
      pair (hexDigit (.ofNat n / 16)) (hexDigit (.ofNat n % 16)) = some (.ofNat n) ∧
      ((encodeByte (.ofNat n)).all fun c => plain (ascii c) || ascii c == '%') = true ∧
      (unreserved (.ofNat n) = true →
        (String.utf8EncodeChar (ascii (.ofNat n))).flatMap encodeByte =
          String.utf8EncodeChar (ascii (.ofNat n))) := by
    decide +kernel
  have found := cases b.toNat b.toNat_lt
  rw [UInt8.ofNat_toNat] at found
  exact ⟨found.1, found.2.1, found.2.2.1, found.2.2.2⟩

theorem decodeBytes_cons {b : UInt8} (rest : List UInt8) (other : b ≠ 37) :
    decodeBytes (b :: rest) = b :: decodeBytes rest := by
  rw [decodeBytes]
  intro high low tail same
  exact absurd same other

theorem decodeBytes_pair {high low b : UInt8} (rest : List UInt8)
    (digits : pair high low = some b) :
    decodeBytes (37 :: high :: low :: rest) = b :: decodeBytes rest := by
  rw [decodeBytes, digits]

theorem encodeByte_cases (b : UInt8) :
    (encodeByte b = [b] ∧ b ≠ 37) ∨
      ∃ high low, encodeByte b = [37, high, low] ∧ pair high low = some b := by
  cases marked : unreserved b
  · exact .inr ⟨_, _, by simp [encodeByte, marked], (written b).digits⟩
  · refine .inl ⟨by simp [encodeByte, marked], ?_⟩
    rintro rfl
    exact absurd marked (by decide)

/-! ## A text -/

theorem decodeBytes_encode (bs : List UInt8) : decodeBytes (bs.flatMap encodeByte) = bs := by
  induction bs with
  | nil => rfl
  | cons b bs ih =>
    rw [List.flatMap_cons]
    obtain ⟨itself, other⟩ | ⟨high, low, escaped, digits⟩ := encodeByte_cases b
    · rw [itself, List.singleton_append, decodeBytes_cons _ other, ih]
    · rw [escaped, List.cons_append, List.cons_append, List.cons_append, List.nil_append,
        decodeBytes_pair _ digits, ih]

theorem utf8_encode (s : String) :
    Bytes.utf8 (encode s) = (Bytes.utf8 s).flatMap encodeByte := by
  rw [encode, Bytes.utf8_ofList]
  induction Bytes.utf8 s with
  | nil => rfl
  | cons b bs ih =>
    rw [List.flatMap_cons, List.map_append, List.flatMap_append, ih, (written b).isAscii]

theorem decode_encode (s : String) : decode (encode s) = some s := by
  rw [decode, utf8_encode, decodeBytes_encode]
  exact Bytes.fromUtf8_utf8 s

theorem plain_of_isAlphanum {c : Char} (h : c.isAlphanum = true) : plain c = true := by
  have ranges : 65 ≤ c.val.toNat ∧ c.val.toNat ≤ 90 ∨ 97 ≤ c.val.toNat ∧ c.val.toNat ≤ 122 ∨
      48 ≤ c.val.toNat ∧ c.val.toNat ≤ 57 := by
    change (decide (c.val ≥ 65 ∧ c.val ≤ 90) || (decide (c.val ≥ 97) && decide (c.val ≤ 122)) ||
      (decide (c.val ≥ 48) && decide (c.val ≤ 57))) = true at h
    simpa [UInt32.le_iff_toNat_le, or_assoc] using h
  have value : c.toNat = c.val.toNat := rfl
  have byte : (UInt8.ofNat c.toNat).toNat = c.toNat := by
    rw [UInt8.toNat_ofNat']
    omega
  simp only [plain, unreserved, UInt8.le_iff_toNat_le, byte, Bool.and_eq_true, Bool.or_eq_true,
    decide_eq_true_eq]
  refine ⟨by omega, .inl (.inl (.inl (.inl ?_)))⟩
  simp only [UInt8.reduceToNat]
  omega

theorem mem_encode {s : String} {c : Char} (h : c ∈ (encode s).toList) :
    plain c = true ∨ c = '%' := by
  simp only [encode, String.toList_ofList, List.mem_map, List.mem_flatMap] at h
  obtain ⟨b, ⟨a, -, mem⟩, rfl⟩ := h
  simpa using List.all_eq_true.mp (written a).characters b mem

theorem encodeByte_plain {c : Char} (h : plain c = true) :
    (String.utf8EncodeChar c).flatMap encodeByte = String.utf8EncodeChar c := by
  simp only [plain, Bool.and_eq_true, decide_eq_true_eq] at h
  have found := (written (UInt8.ofNat c.toNat)).itself h.2
  have same : ascii (UInt8.ofNat c.toNat) = c := by
    rw [ascii, UInt8.toNat_ofNat', Nat.mod_eq_of_lt (by omega), Char.ofNat_toNat]
  rwa [same] at found

theorem encode_eq_self {s : String} (all : ∀ c ∈ s.toList, plain c = true) : encode s = s := by
  apply Bytes.utf8_injective
  rw [utf8_encode, ← String.ofList_toList (s := s), Bytes.utf8_ofList]
  generalize s.toList = chars at all
  induction chars with
  | nil => rfl
  | cons c chars ih =>
    rw [List.flatMap_cons, List.flatMap_append, encodeByte_plain (all c (by simp)),
      ih fun d mem => all d (by simp [mem])]

/-- ASCII texts without a `%` stand for themselves. -/
theorem decode_eq_self {s : String} (all : ∀ c ∈ s.toList, c.toNat < 128 ∧ c ≠ '%') :
    decode s = some s := by
  have bytes : ∀ n < 128, Char.ofNat n ≠ '%' →
      String.utf8EncodeChar (Char.ofNat n) = [.ofNat n] ∧ UInt8.ofNat n ≠ 37 := by decide +kernel
  have kept (chars : List Char) (all : ∀ c ∈ chars, c.toNat < 128 ∧ c ≠ '%') :
      decodeBytes (chars.flatMap String.utf8EncodeChar) =
        chars.flatMap String.utf8EncodeChar := by
    induction chars with
    | nil => rfl
    | cons c chars ih =>
      obtain ⟨⟨small, other⟩, rest⟩ := List.forall_mem_cons.mp all
      obtain ⟨byte, unmarked⟩ := bytes c.toNat small (by rwa [Char.ofNat_toNat])
      rw [Char.ofNat_toNat] at byte
      rw [List.flatMap_cons, byte, List.singleton_append, decodeBytes_cons _ unmarked, ih rest]
  have same := kept s.toList all
  rw [← Bytes.utf8_ofList, String.ofList_toList] at same
  rw [decode, same]
  exact Bytes.fromUtf8_utf8 s

/-! ## As a library has it -/

/-- A library's two functions. -/
structure Codec where
  encode : String → String
  decode : String → Option String

structure Codec.Laws (U : Codec) : Prop where
  decode_encode : ∀ s, U.decode (U.encode s) = some s
  mem_encode : ∀ {s c}, c ∈ (U.encode s).toList → plain c = true ∨ c = '%'
  encode_eq_self : ∀ {s}, (∀ c ∈ s.toList, plain c = true) → U.encode s = s

theorem Codec.Laws.decode_eq_self {U : Codec} (laws : U.Laws) {s : String}
    (all : ∀ c ∈ s.toList, plain c = true) : U.decode s = some s := by
  have read := laws.decode_encode s
  rwa [laws.encode_eq_self all] at read

def codec : Codec := ⟨encode, decode⟩

theorem codec_laws : codec.Laws := ⟨decode_encode, mem_encode, encode_eq_self⟩

end HappyView.Foundation.Percent
