import Keyring.Proofs.IdText

/-! Which texts and which bytes are keys, which key each of them stands for, and what is wrong with the others. A key
is read from the 64 digits or the 32 bytes of its scalar and from nothing else. -/
namespace Keyring

namespace Hex

/-- The number that digits stand for in the base sixteen, the first digit being the highest. -/
def numeral (t : List Char) : Nat := Nat.ofDigits 16 (t.reverse.map place)

lemma number_utf8 {t : List Char} (h : ∀ c ∈ t, IsHexDigit c) : number (Text.utf8 t) = numeral t := by
  have hascii : ∀ c ∈ t, c.toNat < 128 := fun c hc => toNat_lt_of_charValue? (isHexDigit_iff.mp (h c hc))
  rw [Text.utf8_of_ascii hascii,number,List.foldl_map,numeral,Nat.ofDigits_eq_foldr,List.foldr_map,List.foldr_reverse]
  refine List.foldl_ext _ _ _ fun n c hc => ?_
  have hvalue := (exists_place (h c hc)).1
  rw [charValue?,if_pos (hascii c hc)] at hvalue
  rw [hvalue,Option.getD_some,Nat.add_comm]
  rfl

end Hex

namespace BigEndian

/-- The number that bytes stand for in the base 256, the first byte being the highest. -/
def numeral (bytes : Bytes) : Nat := Nat.ofDigits 256 (bytes.reverse.map UInt8.toNat)

lemma toNat_eq_numeral (bytes : Bytes) : toNat bytes = numeral bytes := by
  rw [toNat,numeral,Nat.ofDigits_eq_foldr,List.foldr_map,List.foldr_reverse]
  exact List.foldl_ext _ _ _ fun n b _ => Nat.add_comm _ _

end BigEndian

namespace Key

/-- A number between one and one less than the order of the group. -/
def IsScalar (n : Nat) : Prop := 1 ≤ n ∧ n ≤ groupOrder-1

/-- What was to be read is refused as a key, and the message gives the reason. -/
def Refuses (result : Except KeyFault Key) (reason : String) : Prop :=
  ∃ cause, result.mapError Error.ofKeyFault = .error (.invalidKey cause) ∧ cause.text KeyFault.message = reason

/-- How bytes are read as a key. -/
structure BytesClassified (bytes : Bytes) : Prop where
  accepted : ∀ key, ofBytes bytes = .ok key ↔ bytes.length = 32 ∧ key.scalar = BigEndian.numeral bytes
  exists_iff : (∃ key, ofBytes bytes = .ok key) ↔ bytes.length = 32 ∧ IsScalar (BigEndian.numeral bytes)
  written : ∀ key, ofBytes bytes = .ok key → key.toBytes = bytes
  width : bytes.length ≠ 32 →
    Refuses (ofBytes bytes) ("private key must be 32 bytes, got " ++ toString bytes.length)
  range : bytes.length = 32 → ¬IsScalar (BigEndian.numeral bytes) →
    Refuses (ofBytes bytes) "invalid secp256k1 scalar"

/-- How a text is read as a key. -/
structure TextClassified (t : String) : Prop where
  accepted : ∀ key, ofHex t = .ok key ↔
    t.toList.length = 64 ∧ (∀ c ∈ t.toList, Hex.IsHexDigit c) ∧ key.scalar = Hex.numeral t.toList
  exists_iff : (∃ key, ofHex t = .ok key) ↔
    t.toList.length = 64 ∧ (∀ c ∈ t.toList, Hex.IsHexDigit c) ∧ IsScalar (Hex.numeral t.toList)
  written : ∀ key, ofHex t = .ok key → key.toHex.toList = t.toList.map Char.toLower ∧
    key.toBytes.length = 32 ∧ BigEndian.numeral key.toBytes = Hex.numeral t.toList
  odd : (Text.utf8 t.toList).length%2 = 1 → Refuses (ofHex t) "invalid hex: Odd number of digits"
  stray : (Text.utf8 t.toList).length%2 = 0 → (∃ b ∈ Text.utf8 t.toList, ¬Hex.IsHexDigit (Char.ofNat b.toNat)) →
    ∃ i b, Hex.IsFirstStray (Text.utf8 t.toList) i b ∧ Refuses (ofHex t)
      ("invalid hex: Invalid character " ++ Text.quotedChar (Char.ofNat b.toNat) ++ " at position " ++ toString i)
  width : (Text.utf8 t.toList).length%2 = 0 → (∀ b ∈ Text.utf8 t.toList, Hex.IsHexDigit (Char.ofNat b.toNat)) →
    t.toList.length ≠ 64 →
    Refuses (ofHex t) ("private key must be 32 bytes, got " ++ toString (t.toList.length/2))
  range : t.toList.length = 64 → (∀ c ∈ t.toList, Hex.IsHexDigit c) → ¬IsScalar (Hex.numeral t.toList) →
    Refuses (ofHex t) "invalid secp256k1 scalar"

lemma ext {a b : Key} (h : a.scalar = b.scalar) : a = b := by
  cases a; cases b; cases h; rfl

lemma isScalar (key : Key) : IsScalar key.scalar := ⟨key.pos,Nat.le_sub_one_of_lt key.lt_order⟩

lemma exists_of_isScalar {n : Nat} (h : IsScalar n) : ∃ key : Key, key.scalar = n :=
  ⟨⟨n,h.1,Nat.lt_of_le_sub_one (by decide) h.2⟩,rfl⟩

/-- Each scalar belongs to one key. -/
lemma exists_iff_isScalar {n : Nat} : (∃ key : Key, key.scalar = n) ↔ IsScalar n :=
  ⟨fun ⟨key,h⟩ => h ▸ key.isScalar,exists_of_isScalar⟩

lemma ofScalar?_scalar (key : Key) : ofScalar? key.scalar = some key := dif_pos ⟨key.pos,key.lt_order⟩

lemma ofScalar?_of_not_isScalar {n : Nat} (h : ¬IsScalar n) : ofScalar? n = none :=
  dif_neg fun hn => h ⟨hn.1,Nat.le_sub_one_of_lt hn.2⟩

/-- The key of a number, as it is read. -/
def ofNumber (n : Nat) : Except KeyFault Key :=
  match ofScalar? n with
  | some key => .ok key
  | none => .error .outOfRange

lemma ofNumber_eq_ok_iff {n : Nat} {key : Key} : ofNumber n = .ok key ↔ key.scalar = n := by
  by_cases h : IsScalar n
  · obtain ⟨key',rfl⟩ := exists_of_isScalar h
    rw [ofNumber,ofScalar?_scalar,Except.ok.injEq]
    exact ⟨fun heq => heq ▸ rfl,fun heq => ext heq.symm⟩
  · rw [ofNumber,ofScalar?_of_not_isScalar h]
    exact iff_of_false nofun fun heq => h (heq ▸ key.isScalar)

lemma ofNumber_of_not_isScalar {n : Nat} (h : ¬IsScalar n) : ofNumber n = .error .outOfRange := by
  rw [ofNumber,ofScalar?_of_not_isScalar h]

lemma refuses_of_fault {result : Except KeyFault Key} {fault : KeyFault} (h : result = .error fault) :
    Refuses result fault.message := ⟨.known fault,by rw [h]; rfl,rfl⟩

section

variable {bytes : Bytes}

lemma ofBytes_of_length (h : bytes.length = 32) : ofBytes bytes = ofNumber (BigEndian.numeral bytes) := by
  rw [ofBytes,if_neg (by omega),BigEndian.toNat_eq_numeral]
  rfl

lemma ofBytes_of_length_ne (h : bytes.length ≠ 32) : ofBytes bytes = .error (.width bytes.length) := if_pos h

/-- The bytes that are read as a key are the 32 bytes of its scalar. -/
lemma ofBytes_eq_ok_iff {key : Key} :
    ofBytes bytes = .ok key ↔ bytes.length = 32 ∧ key.scalar = BigEndian.numeral bytes := by
  by_cases hlength : bytes.length = 32
  · rw [ofBytes_of_length hlength,ofNumber_eq_ok_iff,and_iff_right hlength]
  · rw [ofBytes_of_length_ne hlength]
    exact iff_of_false nofun fun h => hlength h.1

lemma toBytes_of_ofBytes {key : Key} (h : ofBytes bytes = .ok key) : key.toBytes = bytes := by
  obtain ⟨hlength,hscalar⟩ := ofBytes_eq_ok_iff.mp h
  rw [toBytes,hscalar,← BigEndian.toNat_eq_numeral,← hlength,BigEndian.ofNat_toNat]

theorem bytesClassified (bytes : Bytes) : BytesClassified bytes where
  accepted _ := ofBytes_eq_ok_iff
  exists_iff := by
    simp only [ofBytes_eq_ok_iff,exists_and_left,exists_iff_isScalar]
  written _ := toBytes_of_ofBytes
  width h := refuses_of_fault (ofBytes_of_length_ne h)
  range hlength h := refuses_of_fault ((ofBytes_of_length hlength).trans (ofNumber_of_not_isScalar h))

end

section

variable {t : String}

/-- A text of digits has as many bytes, and they stand for the same number. -/
lemma textBytes_of_isHexDigit (h : ∀ c ∈ t.toList, Hex.IsHexDigit c) :
    Hex.stray? 0 (textBytes t) = none ∧ (textBytes t).length = t.toList.length ∧
      Hex.number (textBytes t) = Hex.numeral t.toList :=
  ⟨(Hex.stray?_of_isHexDigit h).1,(Hex.stray?_of_isHexDigit h).2,Hex.number_utf8 h⟩

lemma ofHex_of_digits (hlength : t.toList.length = 64) (h : ∀ c ∈ t.toList, Hex.IsHexDigit c) :
    ofHex t = ofNumber (Hex.numeral t.toList) := by
  obtain ⟨hstray,hbytes,hnumber⟩ := textBytes_of_isHexDigit h
  rw [ofHex_of_length hstray (hbytes.trans hlength),hnumber]
  rfl

lemma decodeText_of_ofHex {key : Key} (h : ofHex t = .ok key) : Hex.decodeText t = .ok key.toBytes := by
  rw [ofHex] at h
  cases hdecode : Hex.decodeText t with
  | error fault => simp [hdecode] at h
  | ok bytes =>
    rw [hdecode] at h
    rw [toBytes_of_ofBytes h]

/-- What is read as a key is in lowercase what is written for it. -/
lemma lower_of_ofHex {key : Key} (h : ofHex t = .ok key) : t.toList.map Char.toLower = Hex.encodeChars key.toBytes :=
  Hex.decode_eq_ok_iff.mp (decodeText_of_ofHex h)

/-- The texts that are read as a key are the 64 digits of its scalar. -/
lemma ofHex_eq_ok_iff {key : Key} : ofHex t = .ok key ↔
    t.toList.length = 64 ∧ (∀ c ∈ t.toList, Hex.IsHexDigit c) ∧ key.scalar = Hex.numeral t.toList := by
  constructor
  · intro h
    have hlower := lower_of_ofHex h
    have hdigits := Hex.isHexDigit_of_lower hlower
    have hlength : t.toList.length = 64 := by
      rw [Hex.length_of_lower hlower,toBytes,BigEndian.length_ofNat]
    rw [ofHex_of_digits hlength hdigits,ofNumber_eq_ok_iff] at h
    exact ⟨hlength,hdigits,h⟩
  · rintro ⟨hlength,hdigits,hscalar⟩
    rw [ofHex_of_digits hlength hdigits,ofNumber_eq_ok_iff]
    exact hscalar

theorem textClassified (t : String) : TextClassified t where
  accepted _ := ofHex_eq_ok_iff
  exists_iff := by
    simp only [ofHex_eq_ok_iff,exists_and_left,exists_iff_isScalar]
  written key h := by
    have hbytes := ofBytes_eq_ok_iff.mp key.ofBytes_toBytes
    refine ⟨?_,hbytes.1,?_⟩
    · rw [lower_of_ofHex h,toHex,Hex.encode,String.toList_ofList]
    · rw [← hbytes.2,(ofHex_eq_ok_iff.mp h).2.2]
  odd h := refuses_of_fault (ofHex_of_odd h)
  stray h := by
    rintro ⟨b,hb,hstray⟩
    cases hfirst : Hex.stray? 0 (textBytes t) with
    | none => exact absurd ((Hex.isHexDigit_ofNat_iff b).mpr (Hex.stray?_eq_none_iff.mp hfirst b hb)) hstray
    | some p =>
      obtain ⟨b,j⟩ := p
      obtain ⟨i,rfl,hi⟩ := Hex.isFirstStray_of_stray? hfirst
      rw [Nat.zero_add] at hfirst
      exact ⟨i,b,hi,refuses_of_fault (ofHex_of_stray h hfirst)⟩
  width h hdigits hwidth := by
    have hstray : Hex.stray? 0 (textBytes t) = none :=
      Hex.stray?_eq_none_iff.mpr fun b hb => (Hex.isHexDigit_ofNat_iff b).mp (hdigits b hb)
    have hchars : ∀ c ∈ t.toList, Hex.IsHexDigit c := fun c hc =>
      Hex.isHexDigit_iff.mpr (Hex.isSome_charValue?_of_stray hstray c hc)
    obtain ⟨-,hlength,-⟩ := textBytes_of_isHexDigit hchars
    rw [← hlength] at hwidth ⊢
    exact refuses_of_fault (ofHex_of_length_ne h hstray hwidth)
  range hlength hdigits h := refuses_of_fault ((ofHex_of_digits hlength hdigits).trans (ofNumber_of_not_isScalar h))

end

/-- Every text and every byte string is read as the key of which it gives the scalar, or refused for the first reason
that applies. What is written for a key is read back. -/
theorem key_grammar : (∀ t, TextClassified t) ∧ (∀ bytes, BytesClassified bytes) ∧
    ∀ key, ofHex key.toHex = .ok key ∧ ofBytes key.toBytes = .ok key :=
  ⟨textClassified,bytesClassified,fun key => ⟨ofHex_toHex key,ofBytes_toBytes key⟩⟩

/-- The order of the group is the least number that is too large. -/
example : ofBytes (BigEndian.ofNat 32 groupOrder) = .error .outOfRange := by rfl

end Key
end Keyring
