import HappyView.Foundation.Digits

/-!
# Bytes

Numbers as a fixed number of bytes, the highest or the lowest first, and texts as the bytes
of their UTF-8.
-/

namespace HappyView.Foundation.Bytes

/-! ## Numbers -/

/-- The `width` lowest bytes of a number, the highest first. -/
def big (width n : Nat) : List UInt8 := (Digits.digits 256 width n).map UInt8.ofNat

def ofBig (bytes : List UInt8) : Nat := Digits.value 256 (bytes.map UInt8.toNat)

/-- The `width` lowest bytes of a number, the lowest first. -/
def little (width n : Nat) : List UInt8 := (big width n).reverse

def ofLittle (bytes : List UInt8) : Nat := ofBig bytes.reverse

@[simp] theorem length_big (width n : Nat) : (big width n).length = width := by
  simp [big]

@[simp] theorem length_little (width n : Nat) : (little width n).length = width := by
  simp [little]

theorem ofBig_big {width n : Nat} (small : n < 256 ^ width) : ofBig (big width n) = n := by
  have same : ((Digits.digits 256 width n).map UInt8.ofNat).map UInt8.toNat =
      (Digits.digits 256 width n).map id := by
    rw [List.map_map]
    refine List.map_congr_left fun d mem => ?_
    have digit : d < 256 := Digits.lt_of_mem_digits (by omega) mem
    simpa using digit
  rw [ofBig, big, same, List.map_id, Digits.value_digits, Nat.mod_eq_of_lt small]

theorem toNat_lt_of_mem (bytes : List UInt8) : ∀ d ∈ bytes.map UInt8.toNat, d < 256 := by
  intro d mem
  obtain ⟨byte, -, rfl⟩ := List.mem_map.mp mem
  exact byte.toNat_lt

theorem big_ofBig (bytes : List UInt8) : big bytes.length (ofBig bytes) = bytes := by
  have digits := Digits.digits_value (toNat_lt_of_mem bytes)
  rw [List.length_map] at digits
  rw [big, ofBig, digits, List.map_map]
  exact (List.map_congr_left fun byte _ => UInt8.ofNat_toNat).trans (List.map_id _)

theorem ofBig_lt (bytes : List UInt8) : ofBig bytes < 256 ^ bytes.length := by
  have bound := Digits.value_lt (by omega) (toNat_lt_of_mem bytes)
  rwa [List.length_map] at bound

theorem big_inj {width m n : Nat} (hm : m < 256 ^ width) (hn : n < 256 ^ width)
    (same : big width m = big width n) : m = n := by
  rw [← ofBig_big hm, same, ofBig_big hn]

theorem ofLittle_little {width n : Nat} (small : n < 256 ^ width) :
    ofLittle (little width n) = n := by
  rw [ofLittle, little, List.reverse_reverse, ofBig_big small]

theorem little_ofLittle (bytes : List UInt8) : little bytes.length (ofLittle bytes) = bytes := by
  rw [little, ofLittle, ← List.length_reverse, big_ofBig, List.reverse_reverse]

theorem ofLittle_lt (bytes : List UInt8) : ofLittle bytes < 256 ^ bytes.length := by
  have bound := ofBig_lt bytes.reverse
  rwa [List.length_reverse] at bound

/-! ## Bytes behind their length -/

/-- Bytes behind the `width` lowest bytes of their length. -/
def framed (width : Nat) (bytes : List UInt8) : List UInt8 := big width bytes.length ++ bytes

/-- What stands behind its length can be told from what follows. -/
theorem framed_append_inj {width : Nat} {as bs xs ys : List UInt8}
    (ha : as.length < 256 ^ width) (hb : bs.length < 256 ^ width)
    (same : framed width as ++ xs = framed width bs ++ ys) : as = bs ∧ xs = ys := by
  rw [framed, framed, List.append_assoc, List.append_assoc] at same
  obtain ⟨lengths, rest⟩ := List.append_inj same (by simp)
  exact List.append_inj rest (big_inj ha hb lengths)

/-! ## Texts -/

def utf8 (s : String) : List UInt8 := s.toByteArray.data.toList

def fromUtf8 (bytes : List UInt8) : Option String := String.fromUTF8? ⟨bytes.toArray⟩

theorem utf8_injective {s t : String} (same : utf8 s = utf8 t) : s = t := by
  have arrays : s.toByteArray = t.toByteArray := ByteArray.ext (Array.toList_inj.mp same)
  exact String.toByteArray_inj.mp arrays

theorem utf8_append (s t : String) : utf8 (s ++ t) = utf8 s ++ utf8 t := by
  simp [utf8, String.toByteArray_append]

theorem utf8_ofList (chars : List Char) :
    utf8 (String.ofList chars) = chars.flatMap String.utf8EncodeChar := by
  simp [utf8, String.toByteArray_ofList, List.utf8Encode]

theorem fromUtf8_utf8 (s : String) : fromUtf8 (utf8 s) = some s := by
  have whole : (⟨(utf8 s).toArray⟩ : ByteArray) = s.toByteArray := by simp [utf8]
  rw [fromUtf8, whole, String.fromUTF8?, dif_pos s.isValidUTF8]
  rfl

theorem fromUtf8_eq_some {bytes : List UInt8} {s : String} :
    fromUtf8 bytes = some s ↔ bytes = utf8 s := by
  constructor
  · intro read
    unfold fromUtf8 String.fromUTF8? at read
    split at read
    · cases read
      simp [utf8, String.fromUTF8]
    · cases read
  · rintro rfl
    exact fromUtf8_utf8 s

/-! ## ASCII -/

def byte (c : Char) : UInt8 := .ofNat c.toNat

theorem utf8EncodeChar_ascii {c : Char} (small : c.toNat < 128) :
    String.utf8EncodeChar c = [byte c] := by
  have all : ∀ n < 128, String.utf8EncodeChar (Char.ofNat n) = [UInt8.ofNat n] := by decide
  have found := all c.toNat small
  rwa [Char.ofNat_toNat] at found

theorem utf8_ascii {cs : List Char} (small : ∀ c ∈ cs, c.toNat < 128) :
    utf8 (String.ofList cs) = cs.map byte := by
  rw [utf8_ofList]
  induction cs with
  | nil => rfl
  | cons c cs ih =>
    obtain ⟨first, others⟩ := List.forall_mem_cons.mp small
    rw [List.flatMap_cons, utf8EncodeChar_ascii first, ih others, List.map_cons,
      List.singleton_append]

theorem byte_lt {c d : Char} (hc : c.toNat < 128) (hd : d.toNat < 128) (lt : c < d) :
    byte c < byte d := by
  rw [UInt8.lt_iff_toNat_lt, byte, byte, UInt8.toNat_ofNat', UInt8.toNat_ofNat',
    Nat.mod_eq_of_lt (by omega), Nat.mod_eq_of_lt (by omega)]
  exact lt

theorem map_byte_lt {cs ds : List Char} (hc : ∀ c ∈ cs, c.toNat < 128)
    (hd : ∀ d ∈ ds, d.toNat < 128) (lt : cs < ds) : cs.map byte < ds.map byte := by
  induction cs generalizing ds with
  | nil =>
    obtain _ | ⟨d, ds⟩ := ds
    · exact absurd lt (by simp)
    · simp
  | cons c cs ih =>
    obtain _ | ⟨d, ds⟩ := ds
    · exact absurd lt (by simp)
    · obtain ⟨hc, hcs⟩ := List.forall_mem_cons.mp hc
      obtain ⟨hd, hds⟩ := List.forall_mem_cons.mp hd
      rw [List.map_cons, List.map_cons, List.cons_lt_cons_iff]
      rcases List.cons_lt_cons_iff.mp lt with first | ⟨rfl, rest⟩
      · exact .inl (byte_lt hc hd first)
      · exact .inr ⟨rfl, ih hcs hds rest⟩

end HappyView.Foundation.Bytes
