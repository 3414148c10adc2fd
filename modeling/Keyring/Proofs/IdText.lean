import Keyring.Error
import Keyring.Proofs.Hex
import Keyring.Proofs.KeyText

/-! Which texts are identifiers, which one a text stands for, and what is wrong with the others. -/
namespace Keyring

namespace Hex

/-- The digits in the order of their values. -/
def alphabet : List Char := "0123456789abcdef".toList

/-- The digits of either case. -/
def IsHexDigit (c : Char) : Prop := c.toLower ∈ alphabet

instance (c : Char) : Decidable (IsHexDigit c) := inferInstanceAs (Decidable (_ ∈ _))

/-- The value of a digit is its place in the alphabet. -/
def place (c : Char) : Nat := alphabet.idxOf c.toLower

/-- The bytes that pairs of digits stand for. -/
def digitPairs : List Char → Bytes
  | high :: low :: r => UInt8.ofNat (16*place high + place low) :: digitPairs r
  | _ => []

/-- The first byte that is no digit is `b`, at position `i`. A byte is a digit if the character with its code is one. -/
structure IsFirstStray (text : Bytes) (i : Nat) (b : UInt8) : Prop where
  at_position : text[i]? = some b
  stray : ¬IsHexDigit (Char.ofNat b.toNat)
  before : ∀ c ∈ text.take i, IsHexDigit (Char.ofNat c.toNat)

lemma toLower_of_ge {c : Char} (h : 128 ≤ c.toNat) : c.toLower = c := by
  have hupper : ¬(c.val ≥ 'A'.val ∧ c.val ≤ 'Z'.val) := by
    intro hc
    have hle : c.toNat ≤ 90 := UInt32.le_iff_toNat_le.mp hc.2
    omega
  exact dif_neg hupper

lemma charValue?_eq_some_iff {c : Char} {n : Nat} : charValue? c = some n ↔ n < 16 ∧ c.toLower = digit n := by
  by_cases hascii : c.toNat < 128
  · have hall : ∀ k < 128, ∀ n < 16,
        (charValue? (Char.ofNat k) = some n ↔ (Char.ofNat k).toLower = digit n) := by decide +kernel
    have hc := hall c.toNat hascii
    rw [Char.ofNat_toNat] at hc
    refine ⟨fun h => ?_,fun h => (hc n h.1).mpr h.2⟩
    have hn : n < 16 := by
      rw [charValue?,if_pos hascii] at h
      exact value?_lt h
    exact ⟨hn,(hc n hn).mp h⟩
  · rw [charValue?,if_neg hascii,toLower_of_ge (by omega)]
    exact ⟨nofun,fun ⟨hn,hc⟩ => absurd (hc ▸ toNat_digit_lt hn) hascii⟩

lemma isHexDigit_iff {c : Char} : IsHexDigit c ↔ (charValue? c).isSome := by
  have halphabet : ∀ x : Char, x ∈ alphabet ↔ ∃ n < 16, x = digit n := by
    intro x
    have hlist : alphabet = (List.range 16).map digit := by decide
    simp only [hlist,List.mem_map,List.mem_range]
    exact ⟨fun ⟨n,hn,hx⟩ => ⟨n,hn,hx.symm⟩,fun ⟨n,hn,hx⟩ => ⟨n,hn,hx.symm⟩⟩
  rw [IsHexDigit,halphabet,Option.isSome_iff_exists]
  simp only [charValue?_eq_some_iff]

lemma place_eq {c : Char} {n : Nat} (h : charValue? c = some n) : place c = n := by
  obtain ⟨hn,hc⟩ := charValue?_eq_some_iff.mp h
  have hall : ∀ n < 16, alphabet.idxOf (digit n) = n := by decide
  rw [place,hc,hall n hn]

lemma isHexDigit_ofNat_iff (b : UInt8) : IsHexDigit (Char.ofNat b.toNat) ↔ (value? b).isSome := by
  have hall : ∀ n < 256, (IsHexDigit (Char.ofNat n) ↔ (value? (UInt8.ofNat n)).isSome) := by decide +kernel
  have hb := hall b.toNat b.toNat_lt
  rwa [UInt8.ofNat_toNat] at hb

lemma isHexDigit_of_lower {t : List Char} {bytes : Bytes} (h : t.map Char.toLower = encodeChars bytes) :
    ∀ c ∈ t, IsHexDigit c := by
  intro c hc
  have hlower : c.toLower ∈ encodeChars bytes := h ▸ List.mem_map_of_mem hc
  obtain ⟨n,hn,hdigit⟩ := isDigit_of_mem_encodeChars hlower
  exact isHexDigit_iff.mpr (Option.isSome_iff_exists.mpr ⟨n,charValue?_eq_some_iff.mpr ⟨hn,hdigit⟩⟩)

lemma length_of_lower {t : List Char} {bytes : Bytes} (h : t.map Char.toLower = encodeChars bytes) :
    t.length = 2*bytes.length := by
  rw [← length_encodeChars,← h,List.length_map]

lemma exists_place {c : Char} (h : IsHexDigit c) : charValue? c = some (place c) ∧ place c < 16 ∧
    c.toLower = digit (place c) := by
  obtain ⟨n,hn⟩ := Option.isSome_iff_exists.mp (isHexDigit_iff.mp h)
  rw [place_eq hn]
  exact ⟨hn,charValue?_eq_some_iff.mp hn⟩

/-- The bytes of digits are written as the same digits in lowercase. -/
lemma lower_digitPairs {t : List Char} (h : ∀ c ∈ t, IsHexDigit c) (heven : t.length%2 = 0) :
    t.map Char.toLower = encodeChars (digitPairs t) := by
  induction t using digitPairs.induct with
  | case1 high low r ih =>
    simp only [List.forall_mem_cons] at h
    obtain ⟨hhigh,hlow,hr⟩ := h
    have hrest := ih hr (by simp only [List.length_cons] at heven; omega)
    obtain ⟨-,hhi,hhigh⟩ := exists_place hhigh
    obtain ⟨-,hlo,hlow⟩ := exists_place hlow
    have hbyte : (UInt8.ofNat (16*place high + place low)).toNat = 16*place high + place low := by
      rw [UInt8.toNat_ofNat']
      omega
    have hfirst : (16*place high + place low)/16 = place high := by omega
    have hsecond : (16*place high + place low)%16 = place low := by omega
    rw [digitPairs,encodeChars,hbyte,hfirst,hsecond,← hhigh,← hlow,← hrest]
    rfl
  | case2 t hshort =>
    obtain rfl := eq_nil_of_forall_ne_pair heven hshort
    rfl

lemma decodePairs_digitPairs {i : Nat} {t : List Char} (h : ∀ c ∈ t, IsHexDigit c) :
    decodePairs i (t.map fun c => UInt8.ofNat c.toNat) = .ok (digitPairs t) := by
  have hvalue : ∀ c, IsHexDigit c → value? (UInt8.ofNat c.toNat) = some (place c) := by
    intro c hc
    have hplace := (exists_place hc).1
    rwa [charValue?,if_pos (toNat_lt_of_charValue? (isHexDigit_iff.mp hc))] at hplace
  induction t using digitPairs.induct generalizing i with
  | case1 high low r ih =>
    simp only [List.forall_mem_cons] at h
    simp only [List.map_cons,decodePairs,hvalue high h.1,hvalue low h.2.1,ih h.2.2]
    rfl
  | case2 t hshort =>
    cases t with
    | nil => rfl
    | cons c r =>
      cases r with
      | nil => rfl
      | cons d r => exact absurd rfl (hshort c d r)

lemma stray?_of_isHexDigit {t : List Char} (h : ∀ c ∈ t, IsHexDigit c) :
    stray? 0 (Text.utf8 t) = none ∧ (Text.utf8 t).length = t.length :=
  stray?_of_isSome_charValue? fun c hc => isHexDigit_iff.mp (h c hc)

lemma decode_digitPairs {t : List Char} (h : ∀ c ∈ t, IsHexDigit c) (heven : t.length%2 = 0) :
    decode (Text.utf8 t) = .ok (digitPairs t) := by
  have hlength := (stray?_of_isHexDigit h).2
  have hutf8 := Text.utf8_of_ascii fun c hc => toNat_lt_of_charValue? (isHexDigit_iff.mp (h c hc))
  rw [decode,if_neg (by omega),hutf8,decodePairs_digitPairs h]

/-- The texts that are read as given bytes are those that are written in lowercase for them. -/
theorem decode_eq_ok_iff {t : List Char} {bytes : Bytes} :
    decode (Text.utf8 t) = .ok bytes ↔ t.map Char.toLower = encodeChars bytes := by
  constructor
  · intro h
    have hdigits : ∀ c ∈ t, IsHexDigit c := fun c hc => isHexDigit_iff.mpr (isSome_charValue?_of_decode h c hc)
    have heven : t.length%2 = 0 := by
      rw [← (stray?_of_isHexDigit hdigits).2]
      rw [decode] at h
      split at h
      · cases h
      · omega
    rw [decode_digitPairs hdigits heven] at h
    cases h
    exact lower_digitPairs hdigits heven
  · intro h
    have hdigits := isHexDigit_of_lower h
    have heven : t.length%2 = 0 := by
      rw [length_of_lower h]
      omega
    rw [decode_digitPairs hdigits heven]
    have hpairs := (lower_digitPairs hdigits heven).symm.trans h
    have hdecode := decode_utf8_encodeChars bytes
    rw [← hpairs,decode_utf8_encodeChars] at hdecode
    exact hdecode

lemma isFirstStray_of_stray? {i j : Nat} {text : Bytes} {b : UInt8} (h : stray? i text = some (b,j)) :
    ∃ k, j = i+k ∧ IsFirstStray text k b := by
  induction text generalizing i with
  | nil => cases h
  | cons c r ih =>
    rw [stray?] at h
    split at h
    · next hc =>
      cases h
      refine ⟨0,rfl,rfl,?_,fun d hd => absurd hd List.not_mem_nil⟩
      rw [isHexDigit_ofNat_iff]
      simpa using hc
    · next hc =>
      obtain ⟨k,hk,hat,hstray,hbefore⟩ := ih h
      refine ⟨k+1,by omega,hat,hstray,?_⟩
      rw [List.take_succ_cons,List.forall_mem_cons,isHexDigit_ofNat_iff]
      exact ⟨by simpa [Option.isSome_iff_ne_none] using hc,hbefore⟩

end Hex

namespace Id

variable {kind : IdKind}

/-- The text `d` is the other one without one leading `0x` or `0X`. -/
def IsBare (text d : List Char) : Prop :=
  text = '0' :: 'x' :: d ∨ text = '0' :: 'X' :: d ∨ ¬['0','x'] <+: text ∧ ¬['0','X'] <+: text ∧ d = text

/-- A text is refused, and the message names the kind, the whole text and the reason. -/
def Refused (kind : IdKind) (text reason : String) : Prop :=
  ∃ cause, (parse kind text).mapError Error.ofIdFault = .error (.decode cause) ∧
    cause.text DecodeFault.message = "invalid " ++ kind.label ++ " " ++ Text.quoted text ++ ": " ++ reason

/-- How a text is read of which the digits are `d`. -/
structure Classified (kind : IdKind) (text : String) (d : List Char) : Prop where
  accepted : ∀ id, parse kind text = .ok id ↔
    d.length = 2*kind.width ∧ (∀ c ∈ d, Hex.IsHexDigit c) ∧ id.bytes = Hex.digitPairs d
  rendered : ∀ id, parse kind text = .ok id → id.toHex.toList = d.map Char.toLower
  odd : (Text.utf8 d).length%2 = 1 → Refused kind text "Odd number of digits"
  stray : (Text.utf8 d).length%2 = 0 → (∃ b ∈ Text.utf8 d, ¬Hex.IsHexDigit (Char.ofNat b.toNat)) →
    ∃ i b, Hex.IsFirstStray (Text.utf8 d) i b ∧
      Refused kind text ("Invalid character " ++ Text.quotedChar (Char.ofNat b.toNat) ++ " at position " ++ toString i)
  width : (Text.utf8 d).length%2 = 0 → (∀ b ∈ Text.utf8 d, Hex.IsHexDigit (Char.ofNat b.toNat)) →
    d.length ≠ 2*kind.width →
    (parse kind text).mapError Error.ofIdFault = .error (.invalidId kind.width (d.length/2))

lemma isBare_digits (text : List Char) : IsBare text (digits text) := by
  unfold digits
  split
  · exact .inl rfl
  · exact .inr (.inl rfl)
  · next hx hX =>
    refine .inr (.inr ⟨?_,?_,rfl⟩)
    · rintro ⟨r,rfl⟩
      exact hx r rfl
    · rintro ⟨r,rfl⟩
      exact hX r rfl

lemma digits_of_isHexDigit {t : List Char} (h : ∀ c ∈ t, Hex.IsHexDigit c) : digits t = t := by
  rcases isBare_digits t with ht | ht | ⟨-,-,ht⟩
  · exact absurd (h 'x' (by rw [ht]; simp)) (by decide)
  · exact absurd (h 'X' (by rw [ht]; simp)) (by decide)
  · exact ht

/-- The texts that are read as an identifier are those of which the digits are written in lowercase for it. -/
theorem parse_eq_ok_iff {text : String} {id : Id kind} :
    parse kind text = .ok id ↔ (digits text.toList).map Char.toLower = Hex.encodeChars id.bytes := by
  rw [← Hex.decode_eq_ok_iff,parse]
  cases hdecode : Hex.decode (Text.utf8 (digits text.toList)) with
  | error fault => constructor <;> intro h <;> cases h
  | ok bytes =>
    simp only [ofBytes]
    split
    · simp only [Except.ok.injEq]
      exact ⟨fun h => h ▸ rfl,fun h => ext h⟩
    · next hwidth =>
      refine ⟨fun h => (by cases h),fun h => ?_⟩
      cases h
      exact absurd id.width_eq hwidth

lemma refused_of_decode {text : String} {fault : Hex.Fault}
    (h : Hex.decode (Text.utf8 (digits text.toList)) = .error fault) : Refused kind text fault.message := by
  refine ⟨.known (.id kind text fault),?_,rfl⟩
  rw [parse,h]
  rfl

theorem classified (text : String) : Classified kind text (digits text.toList) where
  accepted id := by
    rw [parse_eq_ok_iff]
    constructor
    · intro h
      have hlength := Hex.length_of_lower h
      have hdigits := Hex.isHexDigit_of_lower h
      have hpairs := Hex.decode_digitPairs hdigits (by omega)
      rw [Hex.decode_eq_ok_iff.mpr h] at hpairs
      exact ⟨by rw [hlength,id.width_eq],hdigits,Except.ok.inj hpairs⟩
    · rintro ⟨hlength,hdigits,hbytes⟩
      rw [hbytes]
      exact Hex.lower_digitPairs hdigits (by omega)
  rendered id h := by
    rw [parse_eq_ok_iff.mp h,toHex,Hex.encode,String.toList_ofList]
  odd h := refused_of_decode (if_pos h)
  stray h := by
    rintro ⟨b,hb,hstray⟩
    cases hfirst : Hex.stray? 0 (Text.utf8 (digits text.toList)) with
    | none => exact absurd ((Hex.isHexDigit_ofNat_iff b).mpr (Hex.stray?_eq_none_iff.mp hfirst b hb)) hstray
    | some p =>
      obtain ⟨b,j⟩ := p
      obtain ⟨i,rfl,hi⟩ := Hex.isFirstStray_of_stray? hfirst
      rw [Nat.zero_add] at hfirst
      have hdecode : Hex.decode (Text.utf8 (digits text.toList)) = .error (.badDigit b i) := by
        rw [Hex.decode,if_neg (by omega),Hex.decodePairs_of_stray h hfirst]
      exact ⟨i,b,hi,refused_of_decode hdecode⟩
  width h hdigits hwidth := by
    have hchars : ∀ c ∈ digits text.toList, Hex.IsHexDigit c := by
      intro c hc
      refine Hex.isHexDigit_iff.mpr (Hex.isSome_charValue?_of_stray (Hex.stray?_eq_none_iff.mpr ?_) c hc)
      exact fun b hb => (Hex.isHexDigit_ofNat_iff b).mp (hdigits b hb)
    have hlength := (Hex.stray?_of_isHexDigit hchars).2
    have htwice := Hex.length_of_lower (Hex.lower_digitPairs hchars (by omega))
    have hne : (Hex.digitPairs (digits text.toList)).length ≠ kind.width := by omega
    have hhalf : (digits text.toList).length/2 = (Hex.digitPairs (digits text.toList)).length := by omega
    rw [parse,Hex.decode_digitPairs hchars (by omega),hhalf]
    simp [ofBytes,hne,Except.mapError,Error.ofIdFault]

/-- An identifier is read from its digits in any case, behind either mark or none. -/
lemma parse_of_lower {mark text : String} {id : Id kind} (hmark : mark = "" ∨ mark = "0x" ∨ mark = "0X")
    (h : text.toList.map Char.toLower = Hex.encodeChars id.bytes) : parse kind (mark ++ text) = .ok id := by
  rw [parse_eq_ok_iff,String.toList_append]
  rcases hmark with rfl | rfl | rfl
  · rw [String.toList_empty,List.nil_append,digits_of_isHexDigit (Hex.isHexDigit_of_lower h),h]
  · exact h
  · exact h

/-- A text in the form in which its identifier is written. -/
def normal (kind : IdKind) (text : String) : Except IdFault String := (parse kind text).map toHex

lemma normal_normal (text : String) : (normal kind text).bind (normal kind) = normal kind text := by
  rw [normal]
  cases parse kind text with
  | error fault => rfl
  | ok id =>
    change (parse kind id.toHex).map toHex = .ok id.toHex
    rw [parse_toHex]
    rfl

/-- Every text is read by its digits alone, or refused for the first reason that applies. What is written for an
identifier is read back, in either case and behind either mark, and to read and write a text again changes nothing. -/
theorem parse_grammar (kind : IdKind) :
    (∀ text, (∃ d, IsBare text.toList d ∧ Classified kind text d) ∧
      (normal kind text).bind (normal kind) = normal kind text) ∧
    ∀ id : Id kind, ∀ mark, mark = "" ∨ mark = "0x" ∨ mark = "0X" →
      parse kind (mark ++ id.toHex) = .ok id ∧ parse kind (mark ++ id.toHex.toUpper) = .ok id := by
  refine ⟨fun text => ⟨⟨_,isBare_digits _,classified text⟩,normal_normal text⟩,fun id mark hmark => ?_⟩
  have hhex : id.toHex.toList = Hex.encodeChars id.bytes := String.toList_ofList
  refine ⟨parse_of_lower hmark ?_,parse_of_lower hmark ?_⟩
  · rw [hhex,Hex.map_encodeChars Char.toLower (by decide)]
  · rw [String.toUpper,String.toList_map,hhex,List.map_map,Hex.map_encodeChars (Char.toLower ∘ Char.toUpper) (by decide)]

/-- Only one mark is taken away. -/
example : parse .eui64 "0x0X01" = .error (.notHex .eui64 "0x0X01" (.badDigit 88 1)) := by rfl

end Id
end Keyring
