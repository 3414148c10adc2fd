import Keyring.Ascending
import Keyring.Proofs.KeyGrammar

/-! The order of identifiers. It is that of the numbers that their bytes are, and that of their texts, so that texts of
identifiers may be sorted before they are read or after. -/
namespace Keyring

namespace BigEndian

lemma numeral_cons (b : UInt8) (r : Bytes) : numeral (b :: r) = numeral r + 256^r.length*b.toNat := by
  simp [numeral,Nat.ofDigits_append]

lemma numeral_lt (bytes : Bytes) : numeral bytes < 256^bytes.length := by
  have hdigits : ∀ n ∈ bytes.reverse.map UInt8.toNat, n < 256 := by
    intro n hn
    obtain ⟨b,-,rfl⟩ := List.mem_map.mp hn
    exact b.toNat_lt
  simpa [numeral] using Nat.ofDigits_lt_base_pow_length (by decide) hdigits

end BigEndian

namespace Id

variable {kind : IdKind}

/-- The higher place decides, and the lower ones only where it is the same. -/
lemma compare_place {base n k x y : Nat} (hn : n < base) (hk : k < base) :
    compare (n + base*x) (k + base*y) = (compare x y).then (compare n k) := by
  rcases Nat.lt_trichotomy x y with h | rfl | h
  · have hstep : base*(x+1) ≤ base*y := Nat.mul_le_mul_left base h
    rw [Nat.mul_succ] at hstep
    have hlt : n + base*x < k + base*y := by omega
    rw [Nat.compare_eq_lt.mpr h,Nat.compare_eq_lt.mpr hlt,Ordering.lt_then]
  · have hsame : compare (n + base*x) (k + base*x) = compare n k := by
      simp only [Nat.compare_eq_ite_lt,Nat.add_lt_add_iff_right]
    rw [Nat.compare_eq_eq.mpr rfl,Ordering.eq_then,hsame]
  · have hstep : base*(y+1) ≤ base*x := Nat.mul_le_mul_left base h
    rw [Nat.mul_succ] at hstep
    have hlt : k + base*y < n + base*x := by omega
    rw [Nat.compare_eq_gt.mpr h,Nat.compare_eq_gt.mpr hlt,Ordering.gt_then]

/-- The first byte that differs decides which number is greater. -/
lemma compareBytes_eq_numeral {a b : Bytes} (h : a.length = b.length) :
    compareBytes a b = compare (BigEndian.numeral a) (BigEndian.numeral b) := by
  induction a generalizing b with
  | nil =>
    rw [List.eq_nil_of_length_eq_zero h.symm]
    rfl
  | cons x r ih =>
    cases b with
    | nil => cases h
    | cons y s =>
      have hlength : r.length = s.length := Nat.succ_inj.mp h
      have hr := BigEndian.numeral_lt r
      have hs := BigEndian.numeral_lt s
      rw [hlength] at hr
      rw [compareBytes,ih hlength,UInt8.compare_eq_toNat_compare_toNat,BigEndian.numeral_cons,BigEndian.numeral_cons,
        hlength,compare_place hr hs]

lemma numeral_inj {a b : Bytes} (h : a.length = b.length) :
    BigEndian.numeral a = BigEndian.numeral b ↔ a = b := by
  refine ⟨fun hab => ?_,fun hab => hab ▸ rfl⟩
  rw [← BigEndian.toNat_eq_numeral,← BigEndian.toNat_eq_numeral] at hab
  rw [← BigEndian.ofNat_toNat a,← BigEndian.ofNat_toNat b,h,hab]

lemma compare_eq_numeral (a b : Id kind) :
    compare a b = compare (BigEndian.numeral a.bytes) (BigEndian.numeral b.bytes) :=
  compareBytes_eq_numeral (a.width_eq.trans b.width_eq.symm)

instance : Std.TransOrd (Id kind) where
  eq_swap {a b} := by
    rw [compare_eq_numeral,compare_eq_numeral]
    exact Std.OrientedCmp.eq_swap
  isLE_trans {a b c} := by
    simp only [compare_eq_numeral]
    exact Std.TransCmp.isLE_trans

instance : Std.LawfulEqOrd (Id kind) where
  compare_self {a} := by
    rw [compare_eq_numeral]
    exact Std.ReflCmp.compare_self
  eq_of_compare {a b} h := by
    rw [compare_eq_numeral,Nat.compare_eq_eq] at h
    exact ext ((numeral_inj (a.width_eq.trans b.width_eq.symm)).mp h)

/-- The digits and the letters among the digits are in the order of their values. -/
lemma strictMonoOn_digit : StrictMonoOn Hex.digit (Set.Iio 16) := by
  have hall : ∀ n < 16, ∀ k < 16, n < k → Hex.digit n < Hex.digit k := by decide
  exact fun n hn k hk => hall n hn k hk

/-- The digits of bytes are in the order of the bytes, though a byte is split over two of them. -/
lemma encodeChars_lt_iff (a b : Bytes) : Hex.encodeChars a < Hex.encodeChars b ↔ compareBytes a b = .lt := by
  induction a generalizing b with
  | nil =>
    cases b with
    | nil => exact iff_of_false (List.lt_irrefl _) nofun
    | cons y s => exact iff_of_true List.Lex.nil rfl
  | cons x r ih =>
    cases b with
    | nil => exact iff_of_false nofun nofun
    | cons y s =>
      have hhigh (b : UInt8) : b.toNat/16 ∈ Set.Iio 16 := Nat.div_lt_of_lt_mul b.toNat_lt
      have hlow (b : UInt8) : b.toNat%16 ∈ Set.Iio 16 := Nat.mod_lt _ (by decide)
      rw [Hex.encodeChars,Hex.encodeChars,List.cons_lt_cons_iff,List.cons_lt_cons_iff,ih,
        strictMonoOn_digit.lt_iff_lt (hhigh x) (hhigh y),strictMonoOn_digit.lt_iff_lt (hlow x) (hlow y),
        strictMonoOn_digit.injOn.eq_iff (hhigh x) (hhigh y),strictMonoOn_digit.injOn.eq_iff (hlow x) (hlow y),
        compareBytes,Ordering.then_eq_lt,UInt8.compare_eq_toNat_compare_toNat,Nat.compare_eq_lt,Nat.compare_eq_eq]
      generalize compareBytes r s = rest
      -- A byte is less if its high digit is, or if that is the same and its low digit is.
      have hlt : x.toNat < y.toNat ↔
          x.toNat/16 < y.toNat/16 ∨ x.toNat/16 = y.toNat/16 ∧ x.toNat%16 < y.toNat%16 := by omega
      have heq : x.toNat = y.toNat ↔ x.toNat/16 = y.toNat/16 ∧ x.toNat%16 = y.toNat%16 := by omega
      rw [hlt,heq,and_or_left,or_assoc,and_assoc]

/-- An identifier is less than another one where its text stands before the other's. -/
theorem compare_eq_lt_iff (a b : Id kind) : compare a b = .lt ↔ a.toHex < b.toHex := by
  rw [String.lt_iff_toList_lt,toHex,toHex,Hex.encode,Hex.encode,String.toList_ofList,String.toList_ofList,
    encodeChars_lt_iff]
  exact Iff.rfl

lemma toHex_inj {a b : Id kind} : a.toHex = b.toHex ↔ a = b := by
  refine ⟨fun h => ?_,fun h => h ▸ rfl⟩
  have hparse := parse_toHex a
  rw [h,parse_toHex] at hparse
  exact (Except.ok.inj hparse).symm

/-- Sorting identifiers is sorting their texts. -/
theorem map_toHex_ascending (ids : List (Id kind)) :
    (ascending ids).map toHex = (ids.map toHex).dedup.mergeSort := by
  have hsorted : ((ascending ids).map toHex).Pairwise (· < ·) := by
    rw [List.pairwise_map]
    exact (pairwise_ascending ids).imp fun {a b} h => (compare_eq_lt_iff a b).mp h
  have hmerged : ((ids.map toHex).dedup.mergeSort).Pairwise (· ≤ ·) := List.pairwise_mergeSort' (· ≤ ·) _
  have hmembers (t : String) : t ∈ (ascending ids).map toHex ↔ t ∈ (ids.map toHex).dedup.mergeSort := by
    rw [List.mem_mergeSort,List.mem_dedup,List.mem_map,List.mem_map]
    simp only [mem_ascending]
  have hperm : ((ascending ids).map toHex).Perm (ids.map toHex).dedup.mergeSort := by
    apply (List.perm_ext_iff_of_nodup _ _).mpr hmembers
    · exact hsorted.imp ne_of_lt
    · exact (List.mergeSort_perm ..).nodup_iff.mpr (List.nodup_dedup _)
  exact hperm.eq_of_pairwise (fun s t _ _ => le_antisymm) (hsorted.imp le_of_lt) hmerged

/-- A text of an identifier: digits of either case, behind a mark or none. -/
def IsText (kind : IdKind) (text : String) : Prop :=
  ∃ mark digits : String, (mark = "" ∨ mark = "0x" ∨ mark = "0X") ∧ text = mark ++ digits ∧
    digits.toList.length = 2*kind.width ∧ ∀ c ∈ digits.toList, Hex.IsHexDigit c

/-- A text in lowercase, without the mark. -/
def lowered (text : String) : String :=
  match text.toList.map Char.toLower with
  | '0' :: 'x' :: r => String.ofList r
  | t => String.ofList t

lemma toLower_eq_zero_iff {c : Char} : c.toLower = '0' ↔ c = '0' := by
  by_cases h : c.toNat < 128
  · have hall : ∀ n < 128, ((Char.ofNat n).toLower = '0' ↔ Char.ofNat n = '0') := by decide +kernel
    simpa using hall c.toNat h
  · rw [Hex.toLower_of_ge (by omega)]

lemma toLower_eq_x_iff {c : Char} : c.toLower = 'x' ↔ c = 'x' ∨ c = 'X' := by
  by_cases h : c.toNat < 128
  · have hall : ∀ n < 128, ((Char.ofNat n).toLower = 'x' ↔ Char.ofNat n = 'x' ∨ Char.ofNat n = 'X') := by
      decide +kernel
    simpa using hall c.toNat h
  · have hX : c ≠ 'X' := by
      rintro rfl
      exact h (by decide)
    rw [Hex.toLower_of_ge (by omega)]
    exact (or_iff_left hX).symm

lemma toList_lowered (text : String) : (lowered text).toList = (digits text.toList).map Char.toLower := by
  rw [lowered]
  rcases isBare_digits text.toList with h | h | ⟨hx,hX,h⟩
  · generalize digits text.toList = d at *
    rw [h]
    exact String.toList_ofList
  · generalize digits text.toList = d at *
    rw [h]
    exact String.toList_ofList
  · rw [h]
    split
    · next r hr =>
      obtain ⟨c,u,hu,hc,hv⟩ := List.map_eq_cons_iff.mp hr
      obtain ⟨e,v,hv,he,-⟩ := List.map_eq_cons_iff.mp hv
      rw [toLower_eq_zero_iff.mp hc,hv] at hu
      rcases toLower_eq_x_iff.mp he with rfl | rfl
      · exact absurd ⟨v,hu.symm⟩ hx
      · exact absurd ⟨v,hu.symm⟩ hX
    · exact String.toList_ofList

lemma toHex_of_parse {text : String} {id : Id kind} (h : parse kind text = .ok id) : id.toHex = lowered text := by
  rw [parse_eq_ok_iff,← toList_lowered] at h
  rw [toHex,Hex.encode,← h,String.ofList_toList]

lemma exists_parse {text : String} (h : IsText kind text) : ∃ id : Id kind, parse kind text = .ok id := by
  obtain ⟨mark,digits,hmark,rfl,hlength,hdigits⟩ := h
  have hlower := Hex.lower_digitPairs hdigits (by omega)
  have htwice := Hex.length_of_lower hlower
  exact ⟨⟨Hex.digitPairs digits.toList,by omega⟩,parse_of_lower hmark hlower⟩

lemma exists_mapM_parse {texts : List String} (h : ∀ text ∈ texts, IsText kind text) :
    ∃ ids, texts.mapM (parse kind) = .ok ids ∧ ids.map toHex = texts.map lowered := by
  induction texts with
  | nil => exact ⟨[],rfl,rfl⟩
  | cons text texts ih =>
    obtain ⟨id,hid⟩ := exists_parse (h text List.mem_cons_self)
    obtain ⟨ids,hids,htexts⟩ := ih fun text ht => h text (List.mem_cons_of_mem _ ht)
    refine ⟨id :: ids,?_,by rw [List.map_cons,List.map_cons,toHex_of_parse hid,htexts]⟩
    rw [List.mapM_cons,hid,hids]
    rfl

lemma length_dedup_map_toHex (ids : List (Id kind)) : (ids.map toHex).dedup.length = ids.dedup.length := by
  rw [List.dedup_map_of_injective fun a b h => toHex_inj.mp h,List.length_map]

/-- Identifiers, the numbers that their bytes are and their texts have one order. Texts of identifiers, however they
are spelled, may therefore be read and then sorted, or be lowered and then sorted as texts, with the same outcome. -/
theorem order_agrees_with_text (kind : IdKind) :
    (∀ a b : Id kind, (compare a b = .lt ↔ a.toHex < b.toHex) ∧
      (compare a b = .lt ↔ BigEndian.numeral a.bytes < BigEndian.numeral b.bytes) ∧ (a = b ↔ a.toHex = b.toHex)) ∧
    ∀ texts : List String, (∀ text ∈ texts, IsText kind text) → ∃ ids, texts.mapM (parse kind) = .ok ids ∧
      (ascending ids).Pairwise (fun a b => compare a b = .lt) ∧ (∀ id, id ∈ ascending ids ↔ id ∈ ids) ∧
      (ascending ids).map toHex = (texts.map lowered).dedup.mergeSort ∧
      ids.dedup.length = (texts.map lowered).dedup.length := by
  constructor
  · intro a b
    refine ⟨compare_eq_lt_iff a b,?_,toHex_inj.symm⟩
    rw [compare_eq_numeral,Nat.compare_eq_lt]
  · intro texts h
    obtain ⟨ids,hids,htexts⟩ := exists_mapM_parse h
    refine ⟨ids,hids,pairwise_ascending ids,fun id => mem_ascending,?_,?_⟩
    · rw [map_toHex_ascending,htexts]
    · rw [← htexts,length_dedup_map_toHex]

/-- Three texts of two identifiers, in both cases and behind both marks. -/
theorem order_agrees_with_text_mixed :
    let texts := ["0X00000000000000FF","00000000000000fF","0x000000000000000a"]
    (∀ text ∈ texts, IsText .eui64 text) ∧
    texts.map lowered = ["00000000000000ff","00000000000000ff","000000000000000a"] ∧
    ∃ ids, texts.mapM (parse .eui64) = .ok ids ∧
      (ascending ids).Pairwise (fun a b => compare a b = .lt) ∧ (∀ id, id ∈ ascending ids ↔ id ∈ ids) ∧
      (ascending ids).map toHex = (texts.map lowered).dedup.mergeSort ∧
      ids.dedup.length = (texts.map lowered).dedup.length := by
  intro texts
  have htexts : ∀ text ∈ texts, IsText .eui64 text := by
    simp only [texts,List.forall_mem_cons]
    refine ⟨⟨"0X","00000000000000FF",.inr (.inr rfl),rfl,rfl,?_⟩,⟨"","00000000000000fF",.inl rfl,rfl,rfl,?_⟩,
      ⟨"0x","000000000000000a",.inr (.inl rfl),rfl,rfl,?_⟩,nofun⟩
    all_goals
      rw [← List.all_iff_forall_prop]
      decide
  exact ⟨htexts,rfl,(order_agrees_with_text .eui64).2 texts htexts⟩

end Id
end Keyring
