import Keyring.Text.Utf8
import Mathlib

/-! Reading bytes as text undoes writing text as bytes: bytes are read completely exactly if they are the
form of a text, and what is read of any bytes is the longest text at their beginning. -/
namespace Keyring.Text

lemma utf8_cons (c : Char) (t : List Char) : utf8 (c :: t) = String.utf8EncodeChar c ++ utf8 t := rfl

/-- A character of ASCII is one byte, its code. -/
lemma utf8EncodeChar_of_lt {c : Char} (h : c.toNat < 128) :
    String.utf8EncodeChar c = [UInt8.ofNat c.toNat] := by
  have hs : c.utf8Size = 1 := by
    rw [Char.utf8Size_eq_one_iff,UInt32.le_iff_toNat_le]
    exact Nat.le_of_lt_succ h
  rw [String.utf8EncodeChar_eq_singleton hs]
  rfl

lemma utf8_of_ascii {t : List Char} (h : ∀ c ∈ t, c.toNat < 128) :
    utf8 t = t.map fun c => UInt8.ofNat c.toNat := by
  induction t with
  | nil => rfl
  | cons c t ih =>
    rw [utf8_cons,utf8EncodeChar_of_lt (h c List.mem_cons_self),
      ih fun d hd => h d (List.mem_cons_of_mem c hd)]
    rfl

lemma toNat_of_charOf? {n : Nat} {c : Char} (h : charOf? n = some c) : c.toNat = n := by
  simp only [charOf?] at h
  split at h
  · next hv =>
    cases h
    show (Char.ofNatAux n hv).val.toNat = n
    simp only [Char.ofNatAux,UInt32.toNat,BitVec.toNat_ofNatLT]
  · cases h

lemma charOf?_toNat (c : Char) : charOf? c.toNat = some c := by
  have hv : c.toNat.isValidChar := c.valid
  rw [charOf?,dif_pos hv]
  congr 1

/-- Whether a byte may follow the first one of a character. -/
def IsTail (b : UInt8) : Prop := 0x80 ≤ b ∧ b < 0xc0

instance (b : UInt8) : Decidable (IsTail b) := inferInstanceAs (Decidable (_ ∧ _))

lemma isTail_iff {b : UInt8} : IsTail b ↔ 0x80 ≤ b.toNat ∧ b.toNat < 0xc0 := by
  simp [IsTail,UInt8.le_iff_toNat_le,UInt8.lt_iff_toNat_lt]

/-- A byte that holds the six lowest bits of `n`. -/
lemma toNat_tail (n : Nat) : (UInt8.ofNat (n%64 + 0x80)).toNat = n%64 + 0x80 := by
  rw [UInt8.toNat_ofNat']
  omega

/-- Some bytes of a character are missing. -/
lemma decodeFrom_more (need value least : Nat) (b : UInt8) (r : Bytes) (h : IsTail b) :
    decodeFrom (need+2) value least (b :: r) =
      decodeFrom (need+1) (value*64 + (b.toNat - 0x80)) least r := by
  rw [decodeFrom]
  simp only [IsTail] at h
  rw [if_pos h,if_neg (Nat.succ_ne_zero need)]

/-- The last byte of a character is missing. -/
lemma decodeFrom_last (value least : Nat) (b : UInt8) (r : Bytes) (h : IsTail b) :
    decodeFrom 1 value least (b :: r) =
      match if least ≤ value*64 + (b.toNat - 0x80) then
        charOf? (value*64 + (b.toNat - 0x80)) else none with
      | some c => (c :: (decodeUtf8 r).1,(decodeUtf8 r).2)
      | none => ([],false) := by
  rw [decodeFrom]
  simp only [IsTail] at h
  rw [if_pos h,if_pos rfl]
  rfl

lemma decodeFrom_stop (need value least : Nat) (b : UInt8) (r : Bytes) (h : ¬IsTail b) :
    decodeFrom (need+1) value least (b :: r) = ([],false) := by
  rw [decodeFrom]
  simp only [IsTail] at h
  rw [if_neg h]

/-- What is read depends on the first byte. -/
lemma decodeUtf8_cons (b : UInt8) (r : Bytes) : decodeUtf8 (b :: r) =
    if b.toNat < 0x80 then (Char.ofNat b.toNat :: (decodeUtf8 r).1,(decodeUtf8 r).2)
    else if 0xc0 ≤ b.toNat ∧ b.toNat < 0xe0 then decodeFrom 1 (b.toNat - 0xc0) 0x80 r
    else if 0xe0 ≤ b.toNat ∧ b.toNat < 0xf0 then decodeFrom 2 (b.toNat - 0xe0) 0x800 r
    else if 0xf0 ≤ b.toNat ∧ b.toNat < 0xf8 then decodeFrom 3 (b.toNat - 0xf0) 0x10000 r
    else ([],false) := by
  simp only [decodeUtf8,decodeFrom,UInt8.lt_iff_toNat_lt,UInt8.le_iff_toNat_le]
  rfl

lemma utf8EncodeChar_two {c : Char} (h : 0x7f < c.toNat) (hle : c.toNat ≤ 0x7ff) :
    String.utf8EncodeChar c =
      [UInt8.ofNat (c.toNat/64%32 + 0xc0),UInt8.ofNat (c.toNat%64 + 0x80)] := by
  change (if c.toNat ≤ 0x7f then _ else if c.toNat ≤ 0x7ff then _ else _) = _
  rw [if_neg (by omega),if_pos hle]
  rfl

lemma utf8EncodeChar_three {c : Char} (h : 0x7ff < c.toNat) (hle : c.toNat ≤ 0xffff) :
    String.utf8EncodeChar c = [UInt8.ofNat (c.toNat/4096%16 + 0xe0),
      UInt8.ofNat (c.toNat/64%64 + 0x80),UInt8.ofNat (c.toNat%64 + 0x80)] := by
  change (if c.toNat ≤ 0x7f then _ else if c.toNat ≤ 0x7ff then _ else
    if c.toNat ≤ 0xffff then _ else _) = _
  rw [if_neg (by omega),if_neg (by omega),if_pos hle]
  rfl

lemma utf8EncodeChar_four {c : Char} (h : 0xffff < c.toNat) :
    String.utf8EncodeChar c = [UInt8.ofNat (c.toNat/262144%8 + 0xf0),
      UInt8.ofNat (c.toNat/4096%64 + 0x80),UInt8.ofNat (c.toNat/64%64 + 0x80),
      UInt8.ofNat (c.toNat%64 + 0x80)] := by
  change (if c.toNat ≤ 0x7f then _ else if c.toNat ≤ 0x7ff then _ else
    if c.toNat ≤ 0xffff then _ else _) = _
  rw [if_neg (by omega),if_neg (by omega),if_neg (by omega)]
  rfl

lemma isTail_ofNat (n : Nat) : IsTail (UInt8.ofNat (n%64 + 0x80)) := by
  rw [isTail_iff,toNat_tail]
  omega

lemma toNat_ofNat {n : Nat} (h : n < 256) : (UInt8.ofNat n).toNat = n := by
  rw [UInt8.toNat_ofNat']
  omega

/-- The last byte of a character outside of ASCII. -/
lemma getLast?_utf8EncodeChar {c : Char} (h : 0x7f < c.toNat) :
    (String.utf8EncodeChar c).getLast? = some (UInt8.ofNat (c.toNat%64 + 0x80)) := by
  by_cases h₂ : c.toNat ≤ 0x7ff
  · rw [utf8EncodeChar_two h h₂]
    rfl
  · by_cases h₃ : c.toNat ≤ 0xffff
    · rw [utf8EncodeChar_three (by omega) h₃]
      rfl
    · rw [utf8EncodeChar_four (by omega)]
      rfl

lemma isTail_of_mem_tail {c : Char} {b : UInt8} (h : b ∈ (String.utf8EncodeChar c).tail) : IsTail b := by
  by_cases h₁ : c.toNat < 128
  · rw [utf8EncodeChar_of_lt h₁] at h
    cases h
  by_cases h₂ : c.toNat ≤ 0x7ff
  · rw [utf8EncodeChar_two (by omega) h₂] at h
    obtain rfl := List.mem_singleton.mp h
    exact isTail_ofNat _
  by_cases h₃ : c.toNat ≤ 0xffff
  · rw [utf8EncodeChar_three (by omega) h₃] at h
    simp only [List.tail_cons,List.mem_cons,List.not_mem_nil,or_false] at h
    rcases h with rfl | rfl <;> exact isTail_ofNat _
  · rw [utf8EncodeChar_four (by omega)] at h
    simp only [List.tail_cons,List.mem_cons,List.not_mem_nil,or_false] at h
    rcases h with rfl | rfl | rfl <;> exact isTail_ofNat _

/-- What stands before the first byte of a character, and what begins with it, are texts. -/
lemma exists_utf8_of_append {t : List Char} {front r : Bytes} {b : UInt8} (hb : ¬IsTail b)
    (h : utf8 t = front ++ b :: r) : ∃ u v, front = utf8 u ∧ b :: r = utf8 v := by
  induction t generalizing front with
  | nil => cases front <;> cases h
  | cons c t ih =>
    cases front with
    | nil => exact ⟨[],c :: t,rfl,h.symm⟩
    | cons d front =>
      rw [utf8_cons] at h
      rcases List.append_eq_append_iff.mp h with ⟨w,hw,ht⟩ | ⟨w,hw,ht⟩
      · obtain ⟨u,v,rfl,hv⟩ := ih ht
        exact ⟨c :: u,v,by rw [utf8_cons,hw],hv⟩
      · cases w with
        | nil => exact ⟨[c],t,by rw [utf8_cons,hw,List.append_nil,utf8_nil,List.append_nil],ht⟩
        | cons b' w =>
          obtain ⟨rfl,-⟩ := List.cons.inj ht
          exact absurd (isTail_of_mem_tail (c := c) (by simp [hw])) hb

lemma toNat_lt (c : Char) : c.toNat < 0x110000 := by
  rcases c.valid with h | h
  · exact Nat.lt_trans h (by decide)
  · exact h.2

lemma toNat_charOfNat {n : Nat} (h : n < 128) : (Char.ofNat n).toNat = n := by
  have hv : n.isValidChar := Or.inl (by omega)
  rw [Char.ofNat,dif_pos hv]
  rfl

/-- A character that was written is read. -/
lemma decodeUtf8_utf8EncodeChar (c : Char) (r : Bytes) :
    decodeUtf8 (String.utf8EncodeChar c ++ r) = (c :: (decodeUtf8 r).1,(decodeUtf8 r).2) := by
  have hc := charOf?_toNat c
  have hmax := toNat_lt c
  by_cases h₁ : c.toNat ≤ 0x7f
  · rw [utf8EncodeChar_of_lt (Nat.lt_succ_of_le h₁),List.singleton_append,decodeUtf8_cons,
      toNat_ofNat (by omega),if_pos (by omega),Char.ofNat_toNat]
  by_cases h₂ : c.toNat ≤ 0x7ff
  · rw [utf8EncodeChar_two (by omega) h₂,List.cons_append,decodeUtf8_cons,
      toNat_ofNat (by omega),if_neg (by omega),if_pos (by omega),List.singleton_append,
      decodeFrom_last _ _ _ _ (isTail_ofNat _),toNat_tail]
    have hv : (c.toNat/64%32 + 0xc0 - 0xc0)*64 + (c.toNat%64 + 0x80 - 0x80) = c.toNat := by omega
    rw [hv,if_pos (by omega),hc]
  by_cases h₃ : c.toNat ≤ 0xffff
  · rw [utf8EncodeChar_three (by omega) h₃,List.cons_append,decodeUtf8_cons,
      toNat_ofNat (by omega),if_neg (by omega),if_neg (by omega),if_pos (by omega),
      List.cons_append,decodeFrom_more _ _ _ _ _ (isTail_ofNat _),List.singleton_append,
      decodeFrom_last _ _ _ _ (isTail_ofNat _),toNat_tail,toNat_tail]
    have hv : ((c.toNat/4096%16 + 0xe0 - 0xe0)*64 + (c.toNat/64%64 + 0x80 - 0x80))*64 +
        (c.toNat%64 + 0x80 - 0x80) = c.toNat := by omega
    rw [hv,if_pos (by omega),hc]
  · rw [utf8EncodeChar_four (by omega),List.cons_append,decodeUtf8_cons,
      toNat_ofNat (by omega),if_neg (by omega),if_neg (by omega),if_neg (by omega),
      if_pos (by omega),List.cons_append,decodeFrom_more _ _ _ _ _ (isTail_ofNat _),
      List.cons_append,decodeFrom_more _ _ _ _ _ (isTail_ofNat _),List.singleton_append,
      decodeFrom_last _ _ _ _ (isTail_ofNat _),toNat_tail,toNat_tail,toNat_tail]
    have hv : (((c.toNat/262144%8 + 0xf0 - 0xf0)*64 + (c.toNat/4096%64 + 0x80 - 0x80))*64 +
        (c.toNat/64%64 + 0x80 - 0x80))*64 + (c.toNat%64 + 0x80 - 0x80) = c.toNat := by omega
    rw [hv,if_pos (by omega),hc]

/-- A text that was written is read. -/
theorem decodeUtf8_utf8 (t : List Char) : decodeUtf8 (utf8 t) = (t,true) := by
  induction t with
  | nil => rfl
  | cons c t ih => rw [utf8_cons,decodeUtf8_utf8EncodeChar,ih]

/-- What is read stands at the beginning of the bytes. -/
def ReadsBeginning (bytes : Bytes) : Prop := utf8 (decodeUtf8 bytes).1 <+: bytes

namespace ReadsBeginning

lemma of_stop {bytes : Bytes} (h : decodeUtf8 bytes = ([],false)) : ReadsBeginning bytes := by
  rw [ReadsBeginning,h]
  exact List.nil_prefix

lemma of_char {bytes r : Bytes} {c : Char} (hr : ReadsBeginning r)
    (hbytes : bytes = String.utf8EncodeChar c ++ r) : ReadsBeginning bytes := by
  subst hbytes
  rw [ReadsBeginning,decodeUtf8_utf8EncodeChar,utf8_cons]
  exact (List.prefix_append_right_inj _).mpr hr

/-- The last byte of a character, before which `value` was read of it. -/
lemma of_last {front r : Bytes} {value least : Nat}
    (hr : ∀ b r', r = b :: r' → ReadsBeginning r')
    (hfront : decodeUtf8 (front ++ r) = decodeFrom 1 value least r)
    (hchar : ∀ b c, IsTail b → least ≤ c.toNat → c.toNat = value*64 + (b.toNat - 0x80) →
      front ++ [b] = String.utf8EncodeChar c) : ReadsBeginning (front ++ r) := by
  cases r with
  | nil => exact of_stop hfront
  | cons b r =>
    by_cases hb : IsTail b
    · rw [decodeFrom_last _ _ _ _ hb] at hfront
      by_cases hl : least ≤ value*64 + (b.toNat - 0x80)
      · rw [if_pos hl] at hfront
        cases hv : charOf? (value*64 + (b.toNat - 0x80)) with
        | none =>
          rw [hv] at hfront
          exact of_stop hfront
        | some c =>
          have hn := toNat_of_charOf? hv
          refine of_char (hr b r rfl) (c := c) ?_
          rw [← hchar b c hb (by omega) hn,List.append_assoc,List.singleton_append]
      · rw [if_neg hl] at hfront
        exact of_stop hfront
    · rw [decodeFrom_stop _ _ _ _ _ hb] at hfront
      exact of_stop hfront

/-- A byte of a character that is not the last one. -/
lemma of_more {front r : Bytes} {need value least : Nat}
    (hfront : decodeUtf8 (front ++ r) = decodeFrom (need+2) value least r)
    (h : ∀ b r', r = b :: r' → IsTail b →
      decodeUtf8 (front ++ [b] ++ r') = decodeFrom (need+1) (value*64 + (b.toNat - 0x80)) least r' →
      ReadsBeginning (front ++ [b] ++ r')) : ReadsBeginning (front ++ r) := by
  cases r with
  | nil => exact of_stop hfront
  | cons b r =>
    by_cases hb : IsTail b
    · rw [decodeFrom_more _ _ _ _ _ hb] at hfront
      have hb' := h b r rfl hb
      simp only [List.append_assoc,List.singleton_append] at hb'
      exact hb' hfront
    · rw [decodeFrom_stop _ _ _ _ _ hb] at hfront
      exact of_stop hfront

end ReadsBeginning

lemma eq_ofNat {b : UInt8} {n : Nat} (h : n = b.toNat) : b = UInt8.ofNat n := by
  rw [h,UInt8.ofNat_toNat]

theorem readsBeginning (bytes : Bytes) : ReadsBeginning bytes := by
  -- The induction is on the length, since a character takes up to four bytes.
  generalize hn : bytes.length = n
  induction n using Nat.strongRecOn generalizing bytes with
  | ind n ih =>
    cases bytes with
    | nil => exact List.prefix_rfl
    | cons b r =>
      have hrest : ∀ r', r'.length ≤ r.length → ReadsBeginning r' := fun r' h =>
        ih r'.length (by simp only [List.length_cons] at hn; omega) r' rfl
      have hd := decodeUtf8_cons b r
      have hb := b.toNat_lt
      split at hd
      · next h₁ =>
        have hc : (Char.ofNat b.toNat).toNat = b.toNat := toNat_charOfNat (by omega)
        refine .of_char (hrest r (Nat.le_refl _)) (c := Char.ofNat b.toNat) ?_
        rw [utf8EncodeChar_of_lt (by omega),hc,UInt8.ofNat_toNat,List.singleton_append]
      · split at hd
        · next h₂ =>
          rw [← List.singleton_append] at hd ⊢
          refine .of_last (fun b₁ r' h => hrest r' (by simp [h])) hd fun b₁ c ht hl hv => ?_
          rw [isTail_iff] at ht
          rw [utf8EncodeChar_two (by omega) (by omega),List.singleton_append]
          simp only [List.cons.injEq,and_true]
          exact ⟨eq_ofNat (by omega),eq_ofNat (by omega)⟩
        · split at hd
          · next h₃ =>
            rw [← List.singleton_append] at hd ⊢
            refine .of_more hd fun b₁ r₁ h₁ ht₁ hd₁ => ?_
            refine .of_last (fun b₂ r' h => hrest r' (by simp [h₁,h]; omega)) hd₁
              fun b₂ c ht hl hv => ?_
            rw [isTail_iff] at ht ht₁
            rw [utf8EncodeChar_three (by omega) (by omega)]
            simp only [List.cons_append,List.nil_append,List.cons.injEq,and_true]
            exact ⟨eq_ofNat (by omega),eq_ofNat (by omega),eq_ofNat (by omega)⟩
          · split at hd
            · next h₄ =>
              rw [← List.singleton_append] at hd ⊢
              refine .of_more hd fun b₁ r₁ h₁ ht₁ hd₁ => ?_
              refine .of_more hd₁ fun b₂ r₂ h₂ ht₂ hd₂ => ?_
              refine .of_last (fun b₃ r' h => hrest r' (by simp [h₁,h₂,h]; omega)) hd₂
                fun b₃ c ht hl hv => ?_
              have hc := toNat_lt c
              rw [isTail_iff] at ht ht₁ ht₂
              rw [utf8EncodeChar_four (by omega)]
              simp only [List.cons_append,List.nil_append,List.cons.injEq,and_true]
              exact ⟨eq_ofNat (by omega),eq_ofNat (by omega),eq_ofNat (by omega),
                eq_ofNat (by omega)⟩
            · exact .of_stop hd

end Keyring.Text
