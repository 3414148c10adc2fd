import Keyring.Proofs.Encoding
import Keyring.Proofs.Text.Utf8
import Keyring.Yaml.Source
import Mathlib

/-! When a text is read as a whole, and what is read of it with more lines behind. -/
namespace Keyring.Yaml

/-- The visible characters of ASCII, and the space. -/
def isPrintable (c : Char) : Bool := 0x20 ≤ c.toNat && c.toNat ≤ 0x7e

/-- A text of lines of printable characters. -/
def IsLines (t : List Char) : Prop := ∀ c ∈ t, isPrintable c ∨ c = '\n'

lemma isLines_of_all {t : List Char} (h : t.all (fun c => isPrintable c || c == '\n') = true) : IsLines t := by
  intro c hc
  simpa using List.all_eq_true.mp h c hc

namespace Source

lemma isReadable_of_mem {t : List Char} (h : IsLines t) {c : Char} (hc : c ∈ t) : isReadable c := by
  rcases h c hc with h | rfl
  · simp only [isPrintable,Bool.and_eq_true,decide_eq_true_eq] at h
    simp [isReadable,h]
  · decide

lemma ofBytes_utf8 {t : List Char} (h : ∀ c ∈ t, isReadable c) : ofBytes (Text.utf8 t) = whole t := by
  have ht : t.takeWhile isReadable = t := List.takeWhile_eq_self_iff.mpr h
  simp only [ofBytes,Text.decodeUtf8_utf8,ht,List.drop_length]

lemma margin_cut (t : List Char) : 0 < (cut t).margin.getD 4 0 := by
  simp only [cut,List.getD_cons_succ,List.getD_cons_zero]
  split
  · exact Nat.succ_pos _
  · next h =>
    have hd : t.drop (t.length - 4) ≠ [] := by
      rw [ne_eq,List.drop_eq_nil_iff]
      omega
    revert hd
    generalize t.drop (t.length - 4) = r
    intro hd
    unfold unifyBreaks
    split
    · exact absurd rfl hd
    · simp
    · simp

/-- Bytes that are not read as a whole do not even show where the end is. -/
lemma margin_of_not_whole {bytes : Bytes} (h : (ofBytes bytes).margin ≠ []) :
    0 < (ofBytes bytes).margin.getD 4 0 := by
  revert h
  simp only [ofBytes]
  split
  · exact fun h => absurd rfl h
  · split
    · exact fun _ => margin_cut _
    · exact fun _ => margin_cut _

/-- Bytes are read as a whole if they are the form of a text without unreadable characters. -/
lemma eq_utf8_of_margin {bytes : Bytes} (h : (ofBytes bytes).margin = []) :
    ∃ t, bytes = Text.utf8 t ∧ ∀ c ∈ t, isReadable c := by
  refine ⟨(Text.decodeUtf8 bytes).1.takeWhile isReadable,?_,fun c hc => List.mem_takeWhile_imp hc⟩
  have hdrop : bytes.drop (Text.utf8 ((Text.decodeUtf8 bytes).1.takeWhile isReadable)).length = [] := by
    revert h
    simp only [ofBytes]
    split
    · next hd => exact fun _ => hd
    · split <;> exact fun h => by cases h
  -- What is readable stands at the beginning of the bytes, and nothing is left behind it.
  obtain ⟨rest,hrest⟩ := Text.readsBeginning bytes
  have hsplit := congrArg Text.utf8
    (List.takeWhile_append_dropWhile (l := (Text.decodeUtf8 bytes).1) (p := isReadable))
  rw [Text.utf8_append] at hsplit
  rw [← hsplit,List.append_assoc] at hrest
  generalize (Text.decodeUtf8 bytes).1.takeWhile isReadable = t at *
  generalize Text.utf8 ((Text.decodeUtf8 bytes).1.dropWhile isReadable) ++ rest = more at *
  rw [← hrest,List.drop_left] at hdrop
  rw [← hrest,hdrop,List.append_nil]

lemma unifyBreaks_cons {c : Char} {r : List Char} (h : c = '\r' → r.head? ≠ some '\n') :
    unifyBreaks (c :: r) = (if c = '\r' ∨ c = '\u0085' then '\n' else c) :: unifyBreaks r := by
  refine unifyBreaks.eq_3 c r fun r' hc hr => h hc ?_
  rw [hr]
  rfl

lemma unifyBreaks_crlf (r : List Char) : unifyBreaks ('\r' :: '\n' :: r) = '\n' :: unifyBreaks r := by
  rw [unifyBreaks]

lemma unifyBreaks_append {t u : List Char} (h : t.getLast? = some '\r' → u.head? ≠ some '\n') :
    unifyBreaks (t ++ u) = unifyBreaks t ++ unifyBreaks u := by
  induction t using unifyBreaks.induct with
  | case1 => rfl
  | case2 r ih =>
    rw [List.cons_append,List.cons_append,unifyBreaks_crlf,unifyBreaks_crlf,List.cons_append]
    congr 1
    refine ih fun hr => h ?_
    cases r with
    | nil => cases hr
    | cons d r => simpa using hr
  | case3 c r hne ih =>
    have hc : c = '\r' → r.head? ≠ some '\n' := by
      rintro rfl hr
      cases r with
      | nil => cases hr
      | cons d r =>
        cases hr
        exact hne r rfl rfl
    have hcu : c = '\r' → (r ++ u).head? ≠ some '\n' := by
      rintro rfl
      cases r with
      | nil => exact h rfl
      | cons d r => exact hc rfl
    rw [List.cons_append,unifyBreaks_cons hcu,unifyBreaks_cons hc,List.cons_append]
    congr 1
    refine ih fun hr => h ?_
    cases r with
    | nil => cases hr
    | cons d r => simpa using hr

/-- A line feed behind a carriage return adds nothing. -/
lemma unifyBreaks_append_lf {t : List Char} (h : t.getLast? = some '\r') (u : List Char) :
    unifyBreaks (t ++ '\n' :: u) = unifyBreaks t ++ unifyBreaks u := by
  obtain ⟨t,rfl⟩ := List.getLast?_eq_some_iff.mp h
  have hcr : unifyBreaks ['\r'] = ['\n'] := by decide
  rw [List.append_assoc,List.singleton_append,unifyBreaks_append (by simp),
    unifyBreaks_append (by simp),unifyBreaks_crlf,hcr,List.append_assoc,List.singleton_append]

lemma unifyBreaks_eq_self {t : List Char} (h : ∀ c ∈ t, c ≠ '\r' ∧ c ≠ '\u0085') :
    unifyBreaks t = t := by
  induction t with
  | nil => rfl
  | cons c t ih =>
    obtain ⟨h₁,h₂⟩ := h c List.mem_cons_self
    rw [unifyBreaks_cons (fun hc => absurd hc h₁),if_neg (by simp [h₁,h₂]),
      ih fun d hd => h d (List.mem_cons_of_mem c hd)]

lemma getLast?_unifyBreaks {t : List Char} (h : t.getLast? = some '\n' ∨ t.getLast? = some '\r') :
    (unifyBreaks t).getLast? = some '\n' := by
  rcases h with h | h
  · obtain ⟨t,rfl⟩ := List.getLast?_eq_some_iff.mp h
    by_cases hr : t.getLast? = some '\r'
    · rw [unifyBreaks_append_lf hr]
      obtain ⟨t,rfl⟩ := List.getLast?_eq_some_iff.mp hr
      have hcr : unifyBreaks ['\r'] = ['\n'] := by decide
      rw [unifyBreaks_append (by simp),hcr]
      simp [unifyBreaks]
    · rw [unifyBreaks_append (fun h => absurd h hr)]
      have hlf : unifyBreaks ['\n'] = ['\n'] := by decide
      simp [hlf]
  · obtain ⟨t,rfl⟩ := List.getLast?_eq_some_iff.mp h
    have hcr : unifyBreaks ['\r'] = ['\n'] := by decide
    rw [unifyBreaks_append (by simp),hcr]
    simp

/-- Only a line feed has a form that ends in the byte of a line feed. -/
lemma getLast?_utf8EncodeChar_eq_lf_iff (c : Char) :
    (String.utf8EncodeChar c).getLast? = some 0x0a ↔ c = '\n' := by
  have hlast : ∀ n, UInt8.ofNat (n%64 + 0x80) ≠ 0x0a := by
    intro n h
    have hn := congrArg UInt8.toNat h
    rw [Text.toNat_tail] at hn
    simp at hn
  by_cases h : c.toNat < 128
  · rw [Text.utf8EncodeChar_of_lt h]
    constructor
    · intro hc
      have hn : (UInt8.ofNat c.toNat).toNat = 10 := congrArg UInt8.toNat (Option.some.inj hc)
      rw [Text.toNat_ofNat (by omega)] at hn
      exact Char.toNat_inj.mp hn
    · rintro rfl
      rfl
  · have hc : c ≠ '\n' := by
      rintro rfl
      exact h (by decide)
    refine iff_of_false ?_ hc
    rw [Text.getLast?_utf8EncodeChar (by omega)]
    simpa using hlast _

/-- The last byte of a text is a line feed exactly if its last character is one. -/
lemma getLast?_utf8_eq_lf_iff (t : List Char) :
    (Text.utf8 t).getLast? = some 0x0a ↔ t.getLast? = some '\n' := by
  rcases List.eq_nil_or_concat t with rfl | ⟨t,c,rfl⟩
  · simp
  · have hne : String.utf8EncodeChar c ≠ [] := String.utf8EncodeChar_ne_nil
    rw [List.concat_eq_append,Text.utf8_append,List.getLast?_append_of_ne_nil _ (by simp [Text.utf8,hne])]
    simpa [Text.utf8] using getLast?_utf8EncodeChar_eq_lf_iff c

lemma utf8_eq_nil_iff (t : List Char) : Text.utf8 t = [] ↔ t = [] := by
  cases t with
  | nil => simp
  | cons c t =>
    have hne : String.utf8EncodeChar c ≠ [] := String.utf8EncodeChar_ne_nil
    simp [Text.utf8_cons,hne]

lemma unifyBreaks_lines {t : List Char} (h : IsLines t) : unifyBreaks t = t := by
  refine unifyBreaks_eq_self fun c hc => ?_
  have hne : ∀ d, isPrintable d = false → d ≠ '\n' → c ≠ d := by
    rintro d hd hn rfl
    rcases h c hc with h | h
    · rw [h] at hd
      cases hd
    · exact hn h
  exact ⟨hne '\r' (by decide) (by decide),hne '\u0085' (by decide) (by decide)⟩

/-- Lines of printable characters are read as they are. -/
lemma ofBytes_lines {t : List Char} (h : IsLines t) : ofBytes (Text.utf8 t) = ⟨t,[]⟩ := by
  rw [ofBytes_utf8 fun c hc => isReadable_of_mem h hc,whole,unifyBreaks_lines h]

/-- A whole text with more lines behind it is whole, and nothing before those lines changes. Between them stands
what ends the last line, unless it is ended already. -/
theorem ofBytes_append {bytes : Bytes} (h : (ofBytes bytes).margin = []) :
    ∃ joint, (joint = ['\n'] ∨ joint = [] ∧
        ((ofBytes bytes).chars = [] ∨ (ofBytes bytes).chars.getLast? = some '\n')) ∧
      ∀ more, IsLines more → more.head? ≠ some '\n' →
        ofBytes (bytes ++ lineEnd bytes ++ Text.utf8 more) = ⟨(ofBytes bytes).chars ++ joint ++ more,[]⟩ := by
  obtain ⟨t,rfl,ht⟩ := eq_utf8_of_margin h
  have happend (joint more : List Char) (hjoint : IsLines joint) (hmore : IsLines more) :
      ofBytes (Text.utf8 t ++ Text.utf8 joint ++ Text.utf8 more) = whole (t ++ (joint ++ more)) := by
    rw [← Text.utf8_append,← Text.utf8_append,List.append_assoc]
    refine ofBytes_utf8 fun c hc => ?_
    simp only [List.mem_append] at hc
    rcases hc with hc | hc | hc
    · exact ht c hc
    · exact isReadable_of_mem hjoint hc
    · exact isReadable_of_mem hmore hc
  rw [ofBytes_utf8 ht]
  by_cases hend : Text.utf8 t ≠ [] ∧ (Text.utf8 t).getLast? ≠ some 0x0a
  · -- The last line is not ended by a line feed.
    have hlf : [0x0a] = Text.utf8 ['\n'] := by decide
    have hlines : IsLines ['\n'] := by simp [IsLines]
    have hself {more : List Char} (hmore : IsLines more) : unifyBreaks ('\n' :: more) = '\n' :: more :=
      unifyBreaks_lines (List.forall_mem_cons.mpr ⟨Or.inr rfl,hmore⟩)
    rw [lineEnd,if_pos hend,hlf]
    by_cases hcr : t.getLast? = some '\r'
    · refine ⟨[],Or.inr ⟨rfl,Or.inr (getLast?_unifyBreaks (Or.inr hcr))⟩,fun more hmore _ => ?_⟩
      rw [happend _ _ hlines hmore,whole,List.singleton_append,unifyBreaks_append_lf hcr,unifyBreaks_lines hmore,
        whole,List.append_nil]
    · refine ⟨['\n'],Or.inl rfl,fun more hmore _ => ?_⟩
      rw [happend _ _ hlines hmore,whole,List.singleton_append,unifyBreaks_append (fun h => absurd h hcr),
        hself hmore,whole,List.append_assoc,List.singleton_append]
  · rw [lineEnd,if_neg hend]
    refine ⟨[],Or.inr ⟨rfl,?_⟩,fun more hmore hhead => ?_⟩
    · by_cases hnil : t = []
      · subst hnil
        exact Or.inl rfl
      · refine Or.inr (getLast?_unifyBreaks (Or.inl ?_))
        rw [← getLast?_utf8_eq_lf_iff]
        by_contra hlast
        exact hend ⟨fun h => hnil ((utf8_eq_nil_iff t).mp h),hlast⟩
    · have h := happend [] more (by simp [IsLines]) hmore
      rw [show Text.utf8 [] = [] from rfl] at h
      rw [h,whole,List.nil_append,unifyBreaks_append (fun _ => hhead),unifyBreaks_lines hmore,whole,List.append_nil]

end Source
end Keyring.Yaml
