import Keyring.Id
import Keyring.Key
import Keyring.Proofs.Text.Utf8

/-! Which texts are keys, and what is wrong with the others. It is decided by the number of their bytes, by the first
byte that is no digit and by the number that the digits stand for. -/
namespace Keyring

namespace Hex

/-- The first byte that is no digit, and its position. The text begins at position `i`. -/
def stray? (i : Nat) : Bytes → Option (UInt8 × Nat)
  | [] => none
  | b :: r => if (value? b).isNone then some (b,i) else stray? (i+1) r

/-- The number that digits stand for, the highest digit first. -/
def number (text : Bytes) : Nat := text.foldl (fun n b => 16*n + (value? b).getD 0) 0

lemma toNat_lt_of_value? {b : UInt8} (h : (value? b).isSome) : b.toNat < 128 := by
  simp only [value?,UInt8.le_iff_toNat_le] at h
  split at h
  · next hb => exact Nat.lt_of_le_of_lt hb.2 (by decide)
  · split at h
    · next hb => exact Nat.lt_of_le_of_lt hb.2 (by decide)
    · split at h
      · next hb => exact Nat.lt_of_le_of_lt hb.2 (by decide)
      · cases h

lemma value?_lt {b : UInt8} {n : Nat} (h : value? b = some n) : n < 16 := by
  simp only [value?,UInt8.le_iff_toNat_le] at h
  split at h
  · next hb =>
    have hle : b.toNat ≤ 57 := hb.2
    cases h
    omega
  · split at h
    · next hb =>
      have hle : b.toNat ≤ 102 := hb.2
      cases h
      omega
    · split at h
      · next hb =>
        have hle : b.toNat ≤ 70 := hb.2
        cases h
        omega
      · cases h

lemma stray?_eq_none_iff {i : Nat} {text : Bytes} : stray? i text = none ↔ ∀ b ∈ text, (value? b).isSome := by
  induction text generalizing i with
  | nil => simp [stray?]
  | cons b r ih =>
    rw [stray?,List.forall_mem_cons,← @ih (i+1)]
    cases value? b <;> simp

/-- A text without a stray byte is made of digits. -/
lemma isSome_charValue?_of_stray {t : List Char} (h : stray? 0 (Text.utf8 t) = none) :
    ∀ c ∈ t, (charValue? c).isSome := by
  intro c hc
  have hbytes : ∀ b ∈ String.utf8EncodeChar c, (value? b).isSome :=
    fun b hb => stray?_eq_none_iff.mp h b (List.mem_flatMap.mpr ⟨c,hc,hb⟩)
  by_cases hascii : c.toNat < 128
  · rw [Text.utf8EncodeChar_of_lt hascii] at hbytes
    rw [charValue?,if_pos hascii]
    exact hbytes _ (List.mem_singleton_self _)
  · have hlast := hbytes _ (List.mem_of_getLast? (Text.getLast?_utf8EncodeChar (by omega)))
    have hlt := toNat_lt_of_value? hlast
    rw [Text.toNat_tail] at hlt
    omega

lemma toNat_lt_of_charValue? {c : Char} (h : (charValue? c).isSome) : c.toNat < 128 := by
  rw [charValue?] at h
  split at h
  · assumption
  · cases h

/-- A text of digits has as many bytes, none of which is stray. -/
lemma stray?_of_isSome_charValue? {t : List Char} (h : ∀ c ∈ t, (charValue? c).isSome) :
    stray? 0 (Text.utf8 t) = none ∧ (Text.utf8 t).length = t.length := by
  rw [Text.utf8_of_ascii fun c hc => toNat_lt_of_charValue? (h c hc)]
  refine ⟨stray?_eq_none_iff.mpr fun b hb => ?_,List.length_map _⟩
  obtain ⟨c,hc,rfl⟩ := List.mem_map.mp hb
  have hvalue := h c hc
  rw [charValue?,if_pos (toNat_lt_of_charValue? (h c hc))] at hvalue
  exact hvalue

/-- What is left of a text of pairs when no pair is left. -/
lemma eq_nil_of_forall_ne_pair {α : Type} {t : List α} (heven : t.length%2 = 0)
    (h : ∀ a b r, t = a :: b :: r → False) : t = [] := by
  match t with
  | [] => rfl
  | [a] => cases heven
  | a :: b :: r => exact absurd rfl (h a b r)

lemma decodePairs_of_stray {i j : Nat} {text : Bytes} {b : UInt8} (heven : text.length%2 = 0)
    (h : stray? i text = some (b,j)) : decodePairs i text = .error (.badDigit b j) := by
  induction i,text using decodePairs.induct with
  | case1 i high low r hhigh =>
    simp only [stray?,hhigh,Option.isNone_none,if_true,Option.some.injEq,Prod.mk.injEq] at h
    obtain ⟨rfl,rfl⟩ := h
    simp only [decodePairs,hhigh]
  | case2 i high low r hi hhigh hlow =>
    simp only [stray?,hhigh,hlow,Option.isNone_none,Option.isNone_some,if_true,Bool.false_eq_true,if_false,
      Option.some.injEq,Prod.mk.injEq] at h
    obtain ⟨rfl,rfl⟩ := h
    simp only [decodePairs,hhigh,hlow]
  | case3 i high low r hi lo hhigh hlow ih =>
    simp only [stray?,hhigh,hlow,Option.isNone_some,Bool.false_eq_true,if_false] at h
    have hr : r.length%2 = 0 := by
      simp only [List.length_cons] at heven
      omega
    simp only [decodePairs,hhigh,hlow,ih hr h]
    rfl
  | case4 text i hshort =>
    obtain rfl := eq_nil_of_forall_ne_pair heven hshort
    cases h

/-- Digits are read as bytes that stand for the same number. -/
lemma decodePairs_of_digits {i : Nat} {text : Bytes} (heven : text.length%2 = 0) (h : stray? i text = none) :
    ∃ bytes, decodePairs i text = .ok bytes ∧ text.length = 2*bytes.length ∧ BigEndian.toNat bytes = number text := by
  suffices hfold : ∃ bytes, decodePairs i text = .ok bytes ∧ text.length = 2*bytes.length ∧
      ∀ n, bytes.foldl (fun n b => 256*n + b.toNat) n = text.foldl (fun n b => 16*n + (value? b).getD 0) n by
    obtain ⟨bytes,hbytes,hlength,hn⟩ := hfold
    exact ⟨bytes,hbytes,hlength,hn 0⟩
  induction i,text using decodePairs.induct with
  | case1 i high low r hhigh => simp [stray?,hhigh] at h
  | case2 i high low r hi hhigh hlow => simp [stray?,hhigh,hlow] at h
  | case3 i high low r hi lo hhigh hlow ih =>
    simp only [stray?,hhigh,hlow,Option.isNone_some,Bool.false_eq_true,if_false] at h
    have hr : r.length%2 = 0 := by
      simp only [List.length_cons] at heven
      omega
    obtain ⟨bytes,hbytes,hlength,hn⟩ := ih hr h
    have hhi := value?_lt hhigh
    have hlo := value?_lt hlow
    have hbyte : (UInt8.ofNat (16*hi+lo)).toNat = 16*hi+lo := by
      rw [UInt8.toNat_ofNat']
      omega
    refine ⟨UInt8.ofNat (16*hi+lo) :: bytes,?_,?_,fun n => ?_⟩
    · simp only [decodePairs,hhigh,hlow,hbytes]
      rfl
    · simp only [List.length_cons,hlength]
      omega
    · have hstep : 256*n + (16*hi+lo) = 16*(16*n+hi)+lo := by omega
      rw [List.foldl_cons,hn,hbyte,List.foldl_cons,List.foldl_cons,hhigh,hlow,hstep]
      rfl
  | case4 text i hshort =>
    obtain rfl := eq_nil_of_forall_ne_pair heven hshort
    exact ⟨[],rfl,rfl,fun _ => rfl⟩

/-- What is read as bytes is a text of digits. -/
lemma isSome_charValue?_of_decode {t : List Char} {bytes : Bytes} (h : decode (Text.utf8 t) = .ok bytes) :
    ∀ c ∈ t, (charValue? c).isSome := by
  apply isSome_charValue?_of_stray
  rw [decode] at h
  split at h
  · cases h
  · cases hstray : stray? 0 (Text.utf8 t) with
    | none => rfl
    | some p =>
      rw [decodePairs_of_stray (by omega) hstray] at h
      cases h

end Hex

/-- What is read as an identifier is a text of digits, up to the mark of their base. -/
lemma Id.isSome_charValue?_of_parse {kind : IdKind} {t : String} {id : Id kind} (h : parse kind t = .ok id) :
    ∀ c ∈ t.toList, (Hex.charValue? c).isSome ∨ c = 'x' ∨ c = 'X' := by
  rw [parse] at h
  cases hdecode : Hex.decode (Text.utf8 (digits t.toList)) with
  | error fault => simp [hdecode] at h
  | ok bytes =>
    have hdigits := Hex.isSome_charValue?_of_decode hdecode
    generalize t.toList = text at hdigits
    rw [digits.eq_def] at hdigits
    split at hdigits
    · simpa [Hex.charValue?,Hex.value?] using fun c hc => Or.inl (hdigits c hc)
    · simpa [Hex.charValue?,Hex.value?] using fun c hc => Or.inl (hdigits c hc)
    · exact fun c hc => .inl (hdigits c hc)

namespace Key

variable {t u : String}

/-- The bytes of a text. -/
def textBytes (t : String) : Bytes := Text.utf8 t.toList

/-- A text of which the digits stand for a scalar. -/
def IsInRange (t : String) : Prop := 1 ≤ Hex.number (textBytes t) ∧ Hex.number (textBytes t) ≤ groupOrder-1

instance (t : String) : Decidable (IsInRange t) := inferInstanceAs (Decidable (_ ∧ _))

lemma ofHex_of_odd (h : (textBytes t).length%2 = 1) : ofHex t = .error (.notHex .oddLength) := by
  have hdecode : Hex.decodeText t = .error .oddLength := if_pos h
  rw [ofHex,hdecode]

lemma decodeText_of_even (h : (textBytes t).length%2 = 0) : Hex.decodeText t = Hex.decodePairs 0 (textBytes t) :=
  if_neg (by
    change ¬(textBytes t).length%2 = 1
    omega)

lemma ofHex_of_stray {b : UInt8} {i : Nat} (h : (textBytes t).length%2 = 0)
    (hstray : Hex.stray? 0 (textBytes t) = some (b,i)) : ofHex t = .error (.notHex (.badDigit b i)) := by
  rw [ofHex,decodeText_of_even h,Hex.decodePairs_of_stray h hstray]

lemma ofHex_of_length_ne (h : (textBytes t).length%2 = 0) (hstray : Hex.stray? 0 (textBytes t) = none)
    (hlength : (textBytes t).length ≠ 64) : ofHex t = .error (.width ((textBytes t).length/2)) := by
  obtain ⟨bytes,hbytes,htwice,-⟩ := Hex.decodePairs_of_digits h hstray
  have hne : bytes.length ≠ 32 := by omega
  have hhalf : (textBytes t).length/2 = bytes.length := by omega
  rw [ofHex,decodeText_of_even h,hbytes,hhalf]
  exact if_pos hne

lemma ofHex_of_length (hstray : Hex.stray? 0 (textBytes t) = none) (hlength : (textBytes t).length = 64) :
    ofHex t = match ofScalar? (Hex.number (textBytes t)) with
      | some key => .ok key
      | none => .error .outOfRange := by
  have heven : (textBytes t).length%2 = 0 := by omega
  obtain ⟨bytes,hbytes,htwice,hnumber⟩ := Hex.decodePairs_of_digits heven hstray
  have h32 : ¬bytes.length ≠ 32 := by omega
  rw [ofHex,decodeText_of_even heven,hbytes,← hnumber]
  exact if_neg h32

lemma ofHex_of_isInRange (hstray : Hex.stray? 0 (textBytes t) = none) (hlength : (textBytes t).length = 64)
    (h : IsInRange t) : ∃ key, ofHex t = .ok key := by
  have hscalar : ofScalar? (Hex.number (textBytes t)) = some _ := dif_pos ⟨h.1,Nat.lt_of_le_sub_one (by decide) h.2⟩
  exact ⟨_,by rw [ofHex_of_length hstray hlength,hscalar]⟩

lemma ofHex_of_not_isInRange (hstray : Hex.stray? 0 (textBytes t) = none) (hlength : (textBytes t).length = 64)
    (h : ¬IsInRange t) : ofHex t = .error .outOfRange := by
  have hscalar : ofScalar? (Hex.number (textBytes t)) = none := dif_neg fun hn => h ⟨hn.1,Nat.le_sub_one_of_lt hn.2⟩
  rw [ofHex_of_length hstray hlength,hscalar]

/-- What two texts have in common if they are refused for the same reason: the number of their bytes, the first byte
that is no digit, if that number is even, and whether they stand for a scalar, if there are 64 digits. -/
structure SameClass (t u : String) : Prop where
  length : (textBytes t).length = (textBytes u).length
  stray : (textBytes t).length%2 = 0 → Hex.stray? 0 (textBytes t) = Hex.stray? 0 (textBytes u)
  range : (textBytes t).length = 64 → Hex.stray? 0 (textBytes t) = none → (IsInRange t ↔ IsInRange u)

lemma SameClass.ofHex (h : SameClass t u) : (∃ fault, Key.ofHex t = .error fault ∧ Key.ofHex u = .error fault) ∨
    ∃ key key', Key.ofHex t = .ok key ∧ Key.ofHex u = .ok key' := by
  rcases Nat.mod_two_eq_zero_or_one (textBytes t).length with heven | hodd
  · have heven' := h.length ▸ heven
    have hstray := h.stray heven
    cases hs : Hex.stray? 0 (textBytes t) with
    | some p => exact .inl ⟨_,ofHex_of_stray heven hs,ofHex_of_stray heven' (hstray ▸ hs)⟩
    | none =>
      have hs' := hstray ▸ hs
      by_cases hlength : (textBytes t).length = 64
      · have hlength' := h.length ▸ hlength
        have hrange := h.range hlength hs
        by_cases hin : IsInRange t
        · obtain ⟨key,hkey⟩ := ofHex_of_isInRange hs hlength hin
          obtain ⟨key',hkey'⟩ := ofHex_of_isInRange hs' hlength' (hrange.mp hin)
          exact .inr ⟨key,key',hkey,hkey'⟩
        · exact .inl ⟨_,ofHex_of_not_isInRange hs hlength hin,ofHex_of_not_isInRange hs' hlength' (mt hrange.mpr hin)⟩
      · have hwidth := ofHex_of_length_ne heven' hs' (h.length ▸ hlength)
        rw [← h.length] at hwidth
        exact .inl ⟨_,ofHex_of_length_ne heven hs hlength,hwidth⟩
  · exact .inl ⟨_,ofHex_of_odd hodd,ofHex_of_odd (h.length ▸ hodd)⟩

end Key
end Keyring
