import Keyring.Key
import Keyring.Id
import Keyring.Proofs.Text.Utf8

/-! Hexadecimal digits read back as the bytes that they were written for, and so do identifiers and keys. -/
namespace Keyring

namespace Hex

/-- The characters that are written. -/
def IsDigit (c : Char) : Prop := ∃ n < 16, c = digit n

lemma toNat_digit_lt {n : Nat} (h : n < 16) : (digit n).toNat < 128 := by
  revert n
  decide

lemma value?_digit {n : Nat} (h : n < 16) : value? (UInt8.ofNat (digit n).toNat) = some n := by
  revert n
  decide

lemma isDigit_of_mem_encodeChars {bytes : Bytes} {c : Char} (h : c ∈ encodeChars bytes) :
    IsDigit c := by
  induction bytes with
  | nil => cases h
  | cons b r ih =>
    have hb := b.toNat_lt
    simp only [encodeChars,List.mem_cons] at h
    rcases h with h | h | h
    · exact ⟨b.toNat/16,by omega,h⟩
    · exact ⟨b.toNat%16,by omega,h⟩
    · exact ih h

/-- A map that leaves every digit as it is leaves the digits of bytes as they are. -/
lemma map_encodeChars (f : Char → Char) (hf : ∀ n < 16, f (digit n) = digit n) (bytes : Bytes) :
    (encodeChars bytes).map f = encodeChars bytes := by
  refine (List.map_congr_left fun c hc => ?_).trans (List.map_id _)
  obtain ⟨n,hn,rfl⟩ := isDigit_of_mem_encodeChars hc
  exact hf n hn

@[simp] lemma length_encodeChars (bytes : Bytes) : (encodeChars bytes).length = 2*bytes.length := by
  induction bytes with
  | nil => rfl
  | cons b r ih =>
    simp only [encodeChars,List.length_cons,ih]
    omega

lemma utf8_encodeChars (bytes : Bytes) :
    Text.utf8 (encodeChars bytes) = (encodeChars bytes).map fun c => UInt8.ofNat c.toNat := by
  apply Text.utf8_of_ascii
  intro c hc
  obtain ⟨n,hn,rfl⟩ := isDigit_of_mem_encodeChars hc
  exact toNat_digit_lt hn

lemma decodePairs_encodeChars (i : Nat) (bytes : Bytes) :
    decodePairs i ((encodeChars bytes).map fun c => UInt8.ofNat c.toNat) = .ok bytes := by
  induction bytes generalizing i with
  | nil => rfl
  | cons b r ih =>
    have hb := b.toNat_lt
    have hhigh := value?_digit (n := b.toNat/16) (by omega)
    have hlow := value?_digit (n := b.toNat%16) (by omega)
    simp only [encodeChars,List.map_cons,decodePairs,hhigh,hlow,ih (i+2)]
    have hbyte : UInt8.ofNat (16*(b.toNat/16) + b.toNat%16) = b := by
      rw [Nat.div_add_mod]
      exact UInt8.ofNat_toNat
    simp [Except.map,hbyte]

lemma decode_utf8_encodeChars (bytes : Bytes) :
    decode (Text.utf8 (encodeChars bytes)) = .ok bytes := by
  have hlen : ¬(Text.utf8 (encodeChars bytes)).length%2 = 1 := by
    rw [utf8_encodeChars,List.length_map,length_encodeChars]
    omega
  rw [decode,if_neg hlen,utf8_encodeChars,decodePairs_encodeChars]

/-- What was written is read back. -/
theorem decodeText_encode (bytes : Bytes) : decodeText (encode bytes) = .ok bytes := by
  rw [decodeText,encode,String.toList_ofList,decode_utf8_encodeChars]

end Hex

namespace BigEndian

lemma toNat_append (a : Bytes) (b : UInt8) : toNat (a ++ [b]) = 256*toNat a + b.toNat := by
  simp [toNat]

lemma toNat_ofNat {w n : Nat} (h : n < 256^w) : toNat (ofNat w n) = n := by
  induction w generalizing n with
  | zero =>
    have hn : n = 0 := by simpa using h
    simp [hn,ofNat,toNat]
  | succ w ih =>
    have hw : n/256 < 256^w := by
      rw [Nat.pow_succ] at h
      omega
    rw [ofNat,toNat_append,ih hw,UInt8.toNat_ofNat']
    omega

lemma ofNat_toNat (bytes : Bytes) : ofNat bytes.length (toNat bytes) = bytes := by
  induction bytes using List.reverseRecOn with
  | nil => rfl
  | append_singleton a b ih =>
    have hb := b.toNat_lt
    have hhigh : (256*toNat a + b.toNat)/256 = toNat a := by omega
    have hlow : UInt8.ofNat (256*toNat a + b.toNat) = b := by
      apply UInt8.toNat_inj.mp
      rw [UInt8.toNat_ofNat']
      omega
    rw [toNat_append,List.length_append,List.length_singleton,ofNat,hhigh,hlow,ih]

end BigEndian

namespace Id

variable {kind : IdKind}

/-- No digit is the mark of a base. -/
lemma digits_encodeChars (bytes : Bytes) :
    digits (Hex.encodeChars bytes) = Hex.encodeChars bytes := by
  have hx : ∀ n < 16, Hex.digit n ≠ 'x' ∧ Hex.digit n ≠ 'X' := by decide
  cases bytes with
  | nil => rfl
  | cons b r =>
    have hb := b.toNat_lt
    obtain ⟨h₁,h₂⟩ := hx (b.toNat%16) (by omega)
    simp only [Hex.encodeChars]
    unfold digits
    split
    · next h => exact absurd (List.cons.inj (List.cons.inj h).2).1 h₁
    · next h => exact absurd (List.cons.inj (List.cons.inj h).2).1 h₂
    · rfl

/-- What was written is read back. -/
theorem parse_toHex (id : Id kind) : parse kind id.toHex = .ok id := by
  rw [parse,toHex,Hex.encode,String.toList_ofList,digits_encodeChars,Hex.decode_utf8_encodeChars]
  simp [ofBytes,id.width_eq]

end Id

namespace Key

lemma order_lt : groupOrder < 256^32 := by decide

lemma ofBytes_toBytes (key : Key) : ofBytes key.toBytes = .ok key := by
  have hlen : ¬key.toBytes.length ≠ 32 := by simp [toBytes]
  have hnat : BigEndian.toNat key.toBytes = key.scalar :=
    BigEndian.toNat_ofNat (Nat.lt_trans key.lt_order order_lt)
  rw [ofBytes,if_neg hlen,hnat,ofScalar?,dif_pos ⟨key.pos,key.lt_order⟩]

/-- What was written is read back. -/
theorem ofHex_toHex (key : Key) : ofHex key.toHex = .ok key := by
  rw [ofHex,toHex,Hex.decodeText_encode]
  exact ofBytes_toBytes key

end Key
end Keyring
