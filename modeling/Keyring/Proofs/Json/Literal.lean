import Keyring.Json.Decode
import Keyring.Proofs.KeyGrammar

/-! Texts as they are spelled in JSON. A character has many spellings between the quotation marks, and a text is read
from any mixture of them. What is written for a text is one of its spellings. -/
namespace Keyring.Json

/-- The letter of a short escape, and the character that it stands for. -/
inductive ShortEscape : Char → Char → Prop
  | quotationMark : ShortEscape '"' '"'
  | backslash : ShortEscape '\\' '\\'
  | slash : ShortEscape '/' '/'
  | backspace : ShortEscape 'b' '\x08'
  | formFeed : ShortEscape 'f' '\x0c'
  | lineFeed : ShortEscape 'n' '\n'
  | carriageReturn : ShortEscape 'r' '\r'
  | tab : ShortEscape 't' '\t'

/-- Four digits that stand for a number. -/
structure IsUnit (digits : List Char) (n : Nat) : Prop where
  length : digits.length = 4
  digit : ∀ c ∈ digits, Hex.IsHexDigit c
  numeral : Hex.numeral digits = n

/-- The spellings of a character. One of the upper planes is escaped as a pair of units. -/
inductive CharSpelling : List Char → Char → Prop
  | raw {c : Char} (mark : c ≠ '"') (backslash : c ≠ '\\') (control : 0x20 ≤ c.toNat) : CharSpelling [c] c
  | short {e c : Char} (escape : ShortEscape e c) : CharSpelling ['\\',e] c
  | unit {digits : List Char} {c : Char} (unit : IsUnit digits c.toNat) : CharSpelling ('\\' :: 'u' :: digits) c
  | pair {first second : List Char} {high low : Nat} {c : Char} (first_unit : IsUnit first high)
      (second_unit : IsUnit second low) (high_range : 0xd800 ≤ high ∧ high < 0xdc00)
      (low_range : 0xdc00 ≤ low ∧ low < 0xe000)
      (code : c.toNat = 0x10000 + (high-0xd800)*0x400 + (low-0xdc00)) :
      CharSpelling ('\\' :: 'u' :: first ++ '\\' :: 'u' :: second) c

/-- The spellings of a text: its characters are spelled one after the other. -/
inductive Spelling : List Char → List Char → Prop
  | nil : Spelling [] []
  | cons {u v t : List Char} {c : Char} (first : CharSpelling u c) (rest : Spelling v t) : Spelling (u ++ v) (c :: t)

/-- The characters between the parts of a document. -/
def IsWhite (c : Char) : Prop := c = ' ' ∨ c = '\t' ∨ c = '\n' ∨ c = '\r'

/-- A document that is a text, with any blanks around it. -/
inductive Literal : (document text : List Char) → Prop
  | mk {before body after text : List Char} (white_before : ∀ c ∈ before, IsWhite c)
      (white_after : ∀ c ∈ after, IsWhite c) (body_spelling : Spelling body text) :
      Literal (before ++ '"' :: body ++ '"' :: after) text

lemma unit?_eq {a b c d : Char} {n : Nat} (h : IsUnit [a,b,c,d] n) : unit? a b c d = some n := by
  obtain ⟨-,hdigits,rfl⟩ := h
  simp only [List.forall_mem_cons] at hdigits
  obtain ⟨ha,hb,hc,hd,-⟩ := hdigits
  simp only [unit?,(Hex.exists_place ha).1,(Hex.exists_place hb).1,(Hex.exists_place hc).1,(Hex.exists_place hd).1,
    Option.bind_eq_bind,Option.bind_some,Hex.numeral,List.reverse_cons,List.reverse_nil,List.nil_append,
    List.cons_append,List.map_cons,List.map_nil,Nat.ofDigits_cons,Nat.ofDigits_nil,Option.some.injEq]
  omega

/-- No unit of a pair is the code of a character. -/
lemma not_surrogate (c : Char) : ¬(0xd800 ≤ c.toNat ∧ c.toNat < 0xdc00) := by
  rcases c.valid with h | h
  · have hlt : c.toNat < 0xd800 := h
    omega
  · have hlt : 0xdfff < c.toNat := h.1
    omega

lemma backslash_ne_mark : '\\' ≠ '"' := by decide

/-- A character is read from any of its spellings. -/
lemma readText_char {u : List Char} {c : Char} (h : CharSpelling u c) (r : List Char) :
    readText (u ++ r) = (readText r).bind fun p => some (c :: p.1,p.2) := by
  cases h with
  | raw mark backslash control =>
    have hcontrol : ¬c.toNat < 0x20 := by omega
    rw [List.singleton_append,readText.eq_def]
    simp only [if_neg mark,if_neg backslash,if_neg hcontrol]
    rfl
  | short escape =>
    rw [List.cons_append,List.singleton_append,readText.eq_def]
    cases escape <;> rfl
  | unit unit =>
    obtain ⟨a,b,c',d,rfl⟩ := List.length_eq_four.mp unit.length
    simp only [List.cons_append,List.nil_append]
    rw [readText.eq_def]
    simp only [if_neg backslash_ne_mark,if_true,unit?_eq unit,Option.bind_eq_bind,Option.bind_some,
      if_neg (not_surrogate c),Text.charOf?_toNat]
  | pair first second high low code =>
    obtain ⟨a,b,c₁,d,rfl⟩ := List.length_eq_four.mp first.length
    obtain ⟨a',b',c₂,d',rfl⟩ := List.length_eq_four.mp second.length
    simp only [List.cons_append,List.nil_append]
    rw [readText.eq_def]
    simp only [if_neg backslash_ne_mark,if_true,unit?_eq first,unit?_eq second,Option.bind_eq_bind,Option.bind_some,
      if_pos high,if_pos low,← code,Text.charOf?_toNat]

/-- A text is read from any of its spellings. -/
theorem readText_spelling {body text : List Char} (h : Spelling body text) (r : List Char) :
    readText (body ++ '"' :: r) = some (text,r) := by
  induction h with
  | nil =>
    rw [List.nil_append,readText.eq_def]
    rfl
  | cons first _ ih => rw [List.append_assoc,readText_char first,ih,Option.bind_some]

lemma isUnit_numeral {a b c d : Char} (ha : Hex.IsHexDigit a) (hb : Hex.IsHexDigit b) (hc : Hex.IsHexDigit c)
    (hd : Hex.IsHexDigit d) : IsUnit [a,b,c,d] (Hex.numeral [a,b,c,d]) := by
  refine ⟨rfl,?_,rfl⟩
  simp only [List.forall_mem_cons]
  exact ⟨ha,hb,hc,hd,by simp⟩

/-- A code below 256 as a unit. -/
lemma isUnit_low {n : Nat} (h : n < 256) : IsUnit ['0','0',Hex.digit (n/16),Hex.digit (n%16)] n := by
  have hplace : ∀ k < 16, Hex.IsHexDigit (Hex.digit k) ∧ Hex.place (Hex.digit k) = k := by decide
  obtain ⟨hhigh,hhigh'⟩ := hplace (n/16) (by omega)
  obtain ⟨hlow,hlow'⟩ := hplace (n%16) (by omega)
  have hzero : Hex.IsHexDigit '0' ∧ Hex.place '0' = 0 := by decide
  have hnumeral : Hex.numeral ['0','0',Hex.digit (n/16),Hex.digit (n%16)] = n := by
    simp only [Hex.numeral,List.reverse_cons,List.reverse_nil,List.nil_append,List.cons_append,List.map_cons,
      List.map_nil,Nat.ofDigits_cons,Nat.ofDigits_nil,hhigh',hlow',hzero.2]
    omega
  have hunit := isUnit_numeral hzero.1 hzero.1 hhigh hlow
  rwa [hnumeral] at hunit

/-- What is written for a character is one of its spellings. -/
lemma charSpelling_writeChar (c : Char) : CharSpelling (writeChar c) c := by
  rw [writeChar]
  split_ifs with hmark hbackslash hbackspace hform hline hreturn htab hcontrol
  · subst hmark
    exact .short .quotationMark
  · subst hbackslash
    exact .short .backslash
  · subst hbackspace
    exact .short .backspace
  · subst hform
    exact .short .formFeed
  · subst hline
    exact .short .lineFeed
  · subst hreturn
    exact .short .carriageReturn
  · subst htab
    exact .short .tab
  · exact .unit (isUnit_low (by omega))
  · exact .raw hmark hbackslash (by omega)

lemma spelling_flatMap_writeChar (text : List Char) : Spelling (text.flatMap writeChar) text := by
  induction text with
  | nil => exact .nil
  | cons c t ih => exact .cons (charSpelling_writeChar c) ih

/-- What is written for a text is a document that is this text. -/
lemma literal_writeText (text : List Char) : Literal (writeText text) text :=
  @Literal.mk [] _ [] _ (by simp) (by simp) (spelling_flatMap_writeChar text)

lemma isBlank_of_isWhite {c : Char} (h : IsWhite c) : isBlank c = true := by
  rcases h with rfl | rfl | rfl | rfl <;> rfl

lemma skipBlanks_white {before : List Char} (h : ∀ c ∈ before, IsWhite c) (r : List Char) :
    skipBlanks (before ++ r) = skipBlanks r := by
  rw [skipBlanks,List.dropWhile_append_of_pos fun c hc => isBlank_of_isWhite (h c hc),skipBlanks]

/-- The text of a document is read, with nothing but blanks behind it. -/
theorem text_literal {document t : List Char} (h : Literal document t) :
    ∃ r, Json.text document = .ok (String.ofList t,r) ∧ skipBlanks r = [] := by
  cases h with
  | @mk before body after _ hbefore hafter hbody =>
    refine ⟨after,?_,?_⟩
    · have hmark : skipBlanks ('"' :: (body ++ '"' :: after)) = '"' :: (body ++ '"' :: after) := rfl
      rw [List.append_assoc,List.cons_append,Json.text,skipBlanks_white hbefore,hmark]
      simp only [readText_spelling hbody]
    · rw [← List.append_nil after,skipBlanks_white hafter]
      rfl

end Keyring.Json
