import Keyring.Proofs.Json.Literal

/-! Values in JSON as the grammar has them, and how they are passed over. An escape of half a pair stands for no
character, so there are texts that are written by the rules and cannot be read; what is passed over may have them. -/
namespace Keyring.Json

/-- What stands between the quotation marks of a text. -/
inductive Body : List Char → Prop
  | nil : Body []
  | raw {c : Char} {t : List Char} (mark : c ≠ '"') (backslash : c ≠ '\\') (control : 0x20 ≤ c.toNat) (rest : Body t) :
      Body (c :: t)
  | short {e c : Char} {t : List Char} (escape : ShortEscape e c) (rest : Body t) : Body ('\\' :: e :: t)
  | unit {digits t : List Char} {n : Nat} (unit : IsUnit digits n) (rest : Body t) : Body ('\\' :: 'u' :: (digits ++ t))

variable {b t r r' : List Char}

lemma Body.append_char {u : List Char} {c : Char} (h : CharSpelling u c) (rest : Body t) : Body (u ++ t) := by
  cases h with
  | raw mark backslash control => exact .raw mark backslash control rest
  | short escape => exact .short escape rest
  | unit unit => exact .unit unit rest
  | @pair first second _ _ _ first_unit second_unit =>
    have h := Body.unit first_unit (.unit second_unit rest)
    simpa using h

/-- The spellings of a text are written by the rules. -/
lemma Spelling.isBody (h : Spelling b t) : Body b := by
  induction h with
  | nil => exact .nil
  | cons first _ ih => exact ih.append_char first

lemma unit?_eq_some_iff {a b c d : Char} {n : Nat} : unit? a b c d = some n ↔ IsUnit [a,b,c,d] n := by
  refine ⟨fun h => ?_,unit?_eq⟩
  have hparts := h
  simp only [unit?,Option.bind_eq_bind,Option.bind_eq_some_iff] at hparts
  obtain ⟨_,ha,_,hb,_,hc,_,hd,-⟩ := hparts
  have hdigit {c : Char} {k : Nat} (hc : Hex.charValue? c = some k) : Hex.IsHexDigit c :=
    Hex.isHexDigit_iff.mpr (Option.isSome_of_eq_some hc)
  have hunit := isUnit_numeral (hdigit ha) (hdigit hb) (hdigit hc) (hdigit hd)
  rw [unit?_eq hunit,Option.some.injEq] at h
  exact h ▸ hunit

lemma skipText_body (h : Body b) (r : List Char) : skipText (b ++ '"' :: r) = some r := by
  induction h with
  | nil =>
    rw [List.nil_append,skipText.eq_def]
    rfl
  | raw mark backslash control _ ih =>
    rw [List.cons_append,skipText.eq_def]
    simp only [if_neg mark,if_neg backslash,if_neg (Nat.not_lt.mpr control),ih]
  | short escape _ ih =>
    rw [List.cons_append,List.cons_append,skipText.eq_def]
    cases escape <;> exact ih
  | unit unit _ ih =>
    obtain ⟨a,b,c,d,rfl⟩ := List.length_eq_four.mp unit.length
    simp only [List.cons_append,List.nil_append]
    rw [skipText.eq_def]
    simp only [if_neg backslash_ne_mark,if_true,unit?_eq unit,Option.isSome_some,ih]

lemma shortEscape_of_lookup {e c : Char} (h : escapes.lookup e = some c) : ShortEscape e c := by
  obtain ⟨before,after,hescapes,-⟩ := List.lookup_eq_some_iff.mp h
  have hmem : (e,c) ∈ escapes := by simp [hescapes]
  simp only [escapes,List.mem_cons,Prod.mk.injEq,List.not_mem_nil,or_false] at hmem
  rcases hmem with ⟨rfl,rfl⟩ | ⟨rfl,rfl⟩ | ⟨rfl,rfl⟩ | ⟨rfl,rfl⟩ | ⟨rfl,rfl⟩ | ⟨rfl,rfl⟩ | ⟨rfl,rfl⟩ | ⟨rfl,rfl⟩
  · exact .quotationMark
  · exact .backslash
  · exact .slash
  · exact .backspace
  · exact .formFeed
  · exact .lineFeed
  · exact .carriageReturn
  · exact .tab

/-- What is read as a text is spelled as this text. -/
lemma exists_spelling {u : List Char} (h : readText u = some (t,r)) : ∃ b, u = b ++ '"' :: r ∧ Spelling b t := by
  induction u using readText.induct generalizing t r with
  | case1 => cases h
  | case2 u =>
    rw [readText.eq_def] at h
    cases h
    exact ⟨[],rfl,.nil⟩
  | case3 hmark =>
    rw [readText.eq_def] at h
    cases h
  | case4 a b' c d u hmark hsecond hrest =>
    rw [readText.eq_def] at h
    simp only [if_neg hmark,if_true,Option.bind_eq_bind,Option.bind_eq_some_iff] at h
    obtain ⟨code,hcode,h⟩ := h
    have hunit := unit?_eq_some_iff.mp hcode
    by_cases hhigh : 0xd800 ≤ code ∧ code < 0xdc00
    · rw [if_pos hhigh] at h
      split at h
      · next a₂ b₂ c₂ d₂ v =>
        obtain ⟨low,hlow,h⟩ := Option.bind_eq_some_iff.mp h
        split at h
        · next hrange =>
          obtain ⟨x,hx,h⟩ := Option.bind_eq_some_iff.mp h
          obtain ⟨⟨t',r'⟩,htext,h⟩ := Option.bind_eq_some_iff.mp h
          cases h
          obtain ⟨body,rfl,hbody⟩ := hsecond htext
          have hpair := CharSpelling.pair hunit (unit?_eq_some_iff.mp hlow) hhigh hrange (Text.toNat_of_charOf? hx)
          exact ⟨_,by simp,.cons hpair hbody⟩
        · cases h
      · cases h
    · rw [if_neg hhigh] at h
      obtain ⟨x,hx,h⟩ := Option.bind_eq_some_iff.mp h
      obtain ⟨⟨t',r'⟩,htext,h⟩ := Option.bind_eq_some_iff.mp h
      cases h
      obtain ⟨body,rfl,hbody⟩ := hrest htext
      have hunit' : IsUnit [a,b',c,d] x.toNat := Text.toNat_of_charOf? hx ▸ hunit
      exact ⟨_,by simp,.cons (.unit hunit') hbody⟩
  | case5 e u hunit hmark ih =>
    rw [readText.eq_def] at h
    simp only [if_neg hmark,if_true,Option.bind_eq_bind,Option.bind_eq_some_iff] at h
    obtain ⟨x,hx,⟨t',r'⟩,htext,h⟩ := h
    cases h
    obtain ⟨body,rfl,hbody⟩ := ih htext
    exact ⟨_,by simp,.cons (.short (shortEscape_of_lookup hx)) hbody⟩
  | case6 c u hmark hbackslash hcontrol =>
    rw [readText.eq_def] at h
    simp only [if_neg hmark,if_neg hbackslash,if_pos hcontrol] at h
    cases h
  | case7 c u hmark hbackslash hcontrol ih =>
    rw [readText.eq_def] at h
    simp only [if_neg hmark,if_neg hbackslash,if_neg hcontrol,Option.bind_eq_bind,Option.bind_eq_some_iff] at h
    obtain ⟨⟨t',r'⟩,htext,h⟩ := h
    cases h
    obtain ⟨body,rfl,hbody⟩ := ih htext
    exact ⟨_,by simp,.cons (.raw hmark hbackslash (Nat.not_lt.mp hcontrol)) hbody⟩

/-- A text that is written by the rules is read where it is the spelling of one. -/
theorem readText_eq_some_iff (h : Body b) : readText (b ++ '"' :: r) = some (t,r') ↔ Spelling b t ∧ r' = r := by
  refine ⟨fun hread => ?_,fun ⟨hb,hr⟩ => hr ▸ readText_spelling hb r⟩
  obtain ⟨b',hb,ht⟩ := exists_spelling hread
  have hr := skipText_body h r
  rw [hb,skipText_body ht.isBody,Option.some.injEq] at hr
  rw [hr,List.append_cancel_right_eq] at hb
  exact ⟨hb ▸ ht,hr⟩

/-- A text is read where it can be, and what stands behind its mark is left. -/
lemma readText_cases {b : List Char} (h : Body b) (r : List Char) :
    (∃ t, Spelling b t ∧ readText (b ++ '"' :: r) = some (t,r)) ∨
      (∀ t, ¬Spelling b t) ∧ readText (b ++ '"' :: r) = none := by
  cases hread : readText (b ++ '"' :: r) with
  | none =>
    refine .inr ⟨fun t ht => ?_,rfl⟩
    rw [readText_spelling ht] at hread
    cases hread
  | some p =>
    obtain ⟨t,u⟩ := p
    obtain ⟨ht,rfl⟩ := (readText_eq_some_iff h).mp hread
    exact .inl ⟨t,ht,rfl⟩

lemma Spelling.unique {t' : List Char} (h : Spelling b t) (h' : Spelling b t') : t = t' := by
  have hread := readText_spelling h []
  rw [readText_spelling h' []] at hread
  cases hread
  rfl

/-- Blanks, of which there may be none. -/
def White (w : List Char) : Prop := ∀ c ∈ w, IsWhite c

def IsDigits (t : List Char) : Prop := t ≠ [] ∧ ∀ c ∈ t, c.isDigit

/-- The whole part of a number. It has no zero before other digits. -/
inductive Whole : List Char → Prop
  | zero : Whole ['0']
  | digits {c : Char} {t : List Char} (digits : IsDigits (c :: t)) (first : c ≠ '0') : Whole (c :: t)

inductive Places : List Char → Prop
  | none : Places []
  | some {t : List Char} (digits : IsDigits t) : Places ('.' :: t)

inductive Exponent : List Char → Prop
  | none : Exponent []
  | some {e : Char} {sign t : List Char} (letter : e = 'e' ∨ e = 'E')
      (sign_eq : sign = [] ∨ sign = ['+'] ∨ sign = ['-']) (digits : IsDigits t) : Exponent (e :: (sign ++ t))

inductive NumberText : List Char → Prop
  | mk {sign whole places exponent : List Char} (sign_eq : sign = [] ∨ sign = ['-']) (isWhole : Whole whole)
      (isPlaces : Places places) (isExponent : Exponent exponent) :
      NumberText (sign ++ (whole ++ (places ++ exponent)))

/-- What may stand behind a value. -/
def Stops (r : List Char) : Prop := ∀ c ∈ r.head?, IsWhite c ∨ c = ',' ∨ c = ']' ∨ c = '}'

/-- A text that does not go on with a digit. -/
def NoDigit (r : List Char) : Prop := ∀ c ∈ r.head?, c.isDigit = false

lemma Stops.eq_of_mem {c : Char} (h : Stops r) (hc : c ∈ r.head?) :
    c = ' ' ∨ c = '\t' ∨ c = '\n' ∨ c = '\r' ∨ c = ',' ∨ c = ']' ∨ c = '}' := by
  simpa only [IsWhite,or_assoc] using h c hc

lemma Stops.noDigit (h : Stops r) : NoDigit r := by
  intro c hc
  rcases h.eq_of_mem hc with rfl | rfl | rfl | rfl | rfl | rfl | rfl <;> rfl

lemma takeWhile_digits (ht : ∀ c ∈ t, c.isDigit) (hr : NoDigit r) :
    (t ++ r).takeWhile Char.isDigit = t ∧ (t ++ r).dropWhile Char.isDigit = r := by
  rw [List.takeWhile_append_of_pos ht,List.dropWhile_append_of_pos ht]
  cases r with
  | nil => simp
  | cons c r => simp [hr c rfl]

lemma ne_of_isDigit {c d : Char} (hc : c.isDigit) (hd : d.isDigit = false) : c ≠ d := by
  rintro rfl
  rw [hc] at hd
  cases hd

/-- Digits begin with a digit. -/
lemma IsDigits.ne_cons {d : Char} {u : List Char} (ht : IsDigits t) (hd : d.isDigit = false) : t ++ r ≠ d :: u := by
  obtain ⟨c,v,rfl⟩ := List.exists_cons_of_ne_nil ht.1
  intro h
  exact ne_of_isDigit (ht.2 c List.mem_cons_self) hd (List.cons.inj h).1

lemma exists_exponent? {sign : List Char} (hsign : sign = [] ∨ sign = ['+'] ∨ sign = ['-']) (ht : IsDigits t)
    (hr : NoDigit r) : ∃ e, exponent? (sign ++ (t ++ r)) = some (e,r) := by
  obtain ⟨htake,hdrop⟩ := takeWhile_digits ht.2 hr
  rcases hsign with rfl | rfl | rfl
  · rw [List.nil_append,exponent?.eq_3 _ (fun u h => ht.ne_cons rfl h) (fun u h => ht.ne_cons rfl h),htake,hdrop,
      if_neg ht.1]
    exact ⟨_,rfl⟩
  · rw [List.singleton_append,exponent?.eq_1,htake,hdrop,if_neg ht.1]
    exact ⟨_,rfl⟩
  · rw [List.singleton_append,exponent?.eq_2,htake,hdrop,if_neg ht.1]
    exact ⟨_,rfl⟩

lemma Whole.isDigits (h : Whole t) : IsDigits t := by
  cases h with
  | zero => exact ⟨by decide,by simp⟩
  | digits digits _ => exact digits

/-- No digits but a single one begin with a zero. -/
lemma Whole.head?_ne (h : Whole t) : ¬(t = [] ∨ t.head? = some '0' ∧ t.length ≠ 1) := by
  rintro (rfl | ⟨hhead,hlength⟩)
  · exact h.isDigits.1 rfl
  · cases h with
    | zero => exact hlength rfl
    | digits _ first => exact first (Option.some.inj hhead)

lemma Exponent.noDigit {exponent : List Char} (h : Exponent exponent) (hr : Stops r) : NoDigit (exponent ++ r) := by
  cases h with
  | none => exact hr.noDigit
  | some letter _ _ =>
    intro c hc
    rw [← Option.some.inj hc]
    rcases letter with rfl | rfl <;> rfl

lemma Exponent.ne_point {exponent u : List Char} (h : Exponent exponent) (hr : Stops r) : exponent ++ r ≠ '.' :: u := by
  intro hcons
  cases h with
  | none =>
    have hc : '.' ∈ r.head? := congrArg List.head? hcons
    simpa using hr.eq_of_mem hc
  | some letter _ _ =>
    rw [(List.cons.inj hcons).1] at letter
    rcases letter with h | h <;> cases h

lemma Places.noDigit {places : List Char} (h : Places places) (hr : NoDigit r) : NoDigit (places ++ r) := by
  cases h with
  | none => exact hr
  | some digits =>
    intro c hc
    rw [← Option.some.inj hc]
    rfl

lemma number?_minus (h : ∀ u, r ≠ '-' :: u) : number? ('-' :: r) = number? r := by
  rw [number?.eq_1,number?.eq_2 r h]

lemma exists_unsigned {whole places exponent : List Char} (hwhole : Whole whole) (hplaces : Places places)
    (hexponent : Exponent exponent) (hr : Stops r) :
    ∃ x, number? (whole ++ (places ++ (exponent ++ r))) = some (x,r) := by
  have hdigit := hexponent.noDigit hr
  obtain ⟨htake,hdrop⟩ := takeWhile_digits hwhole.isDigits.2 (hplaces.noDigit hdigit)
  have hbehind (p : List Char) : ∃ x, (match exponent ++ r with
      | c :: u =>
        if c = 'e' ∨ c = 'E' then
          (exponent? u).bind fun q => some ((⟨whole,p,some q.1⟩ : Number),q.2)
        else some (⟨whole,p,none⟩,exponent ++ r)
      | [] => some (⟨whole,p,none⟩,[])) = some (x,r) := by
    cases hexponent with
    | none =>
      cases r with
      | nil => exact ⟨_,rfl⟩
      | cons c r =>
        have hc : ¬(c = 'e' ∨ c = 'E') := by
          rintro (rfl | rfl)
          · simpa using hr.eq_of_mem rfl
          · simpa using hr.eq_of_mem rfl
        exact ⟨_,if_neg hc⟩
    | some letter hsign hdigits =>
      obtain ⟨e,he⟩ := exists_exponent? hsign hdigits hr.noDigit
      simp only [List.cons_append,if_pos letter,List.append_assoc,he]
      exact ⟨_,rfl⟩
  rw [number?.eq_2 _ fun u h => hwhole.isDigits.ne_cons rfl h,htake,hdrop,if_neg hwhole.head?_ne]
  cases hplaces with
  | none =>
    rw [List.nil_append]
    split
    · next u h => exact absurd h (hexponent.ne_point hr)
    · exact hbehind []
  | some digits =>
    obtain ⟨htake,hdrop⟩ := takeWhile_digits digits.2 hdigit
    simp only [List.cons_append,htake,hdrop,if_neg digits.1]
    exact hbehind _

/-- A number is read up to what stands behind it. -/
theorem exists_number? (h : NumberText t) (hr : Stops r) : ∃ x, number? (t ++ r) = some (x,r) := by
  cases h with
  | mk hsign hwhole hplaces hexponent =>
    obtain ⟨x,hx⟩ := exists_unsigned hwhole hplaces hexponent hr
    refine ⟨x,?_⟩
    simp only [List.append_assoc]
    rcases hsign with rfl | rfl
    · exact hx
    · exact (number?_minus fun u h => hwhole.isDigits.ne_cons rfl h).trans hx

/-- The name and the value of a member of an object, as they are written. The name stands between quotation marks. -/
structure Member where
  name : List Char
  value : List Char

/-- What a text may be. An item is a value with its blanks; items and members are separated by commas. -/
inductive Form where
  | value
  | item (value : List Char)
  | items
  | member (m : Member)
  | members (ms : List Member)

/-- The texts of each form. -/
inductive Phrase : Form → List Char → Prop
  | word {t : List Char} (isWord : t = "null".toList ∨ t = "true".toList ∨ t = "false".toList) : Phrase .value t
  | number {t : List Char} (isNumber : NumberText t) : Phrase .value t
  | text {t : List Char} (isBody : Body t) : Phrase .value ('"' :: (t ++ ['"']))
  | emptyArray {w : List Char} (white : White w) : Phrase .value ('[' :: (w ++ [']']))
  | array {t : List Char} (items : Phrase .items t) : Phrase .value ('[' :: (t ++ [']']))
  | emptyObject {w : List Char} (white : White w) : Phrase .value ('{' :: (w ++ ['}']))
  | object {ms : List Member} {t : List Char} (members : Phrase (.members ms) t) : Phrase .value ('{' :: (t ++ ['}']))
  | item {before v after : List Char} (white_before : White before) (value : Phrase .value v)
      (white_after : White after) : Phrase (.item v) (before ++ (v ++ after))
  | lastItem {v t : List Char} (item : Phrase (.item v) t) : Phrase .items t
  | moreItems {v t u : List Char} (item : Phrase (.item v) t) (items : Phrase .items u) : Phrase .items (t ++ ',' :: u)
  | member {before name behind v t : List Char} (white_before : White before) (isBody : Body name)
      (white_behind : White behind) (item : Phrase (.item v) t) :
      Phrase (.member ⟨name,v⟩) (before ++ '"' :: (name ++ '"' :: (behind ++ ':' :: t)))
  | lastMember {m : Member} {t : List Char} (member : Phrase (.member m) t) : Phrase (.members [m]) t
  | moreMembers {m : Member} {ms : List Member} {t u : List Char} (member : Phrase (.member m) t)
      (members : Phrase (.members ms) u) : Phrase (.members (m :: ms)) (t ++ ',' :: u)

/-- What stands behind an item or a member. -/
def Closes (r : List Char) : Prop := ∃ c u, r = c :: u ∧ (c = ',' ∨ c = ']' ∨ c = '}')

lemma skipBlanks_of_not_isBlank {c : Char} (h : isBlank c = false) (r : List Char) : skipBlanks (c :: r) = c :: r := by
  rw [skipBlanks,List.dropWhile_cons,h]
  rfl

lemma Closes.skipBlanks_eq (h : Closes r) : skipBlanks r = r := by
  obtain ⟨c,u,rfl,hc⟩ := h
  apply skipBlanks_of_not_isBlank
  rcases hc with rfl | rfl | rfl <;> rfl

lemma Closes.stops (h : Closes r) {w : List Char} (hw : White w) : Stops (w ++ r) := by
  obtain ⟨c,u,rfl,hc⟩ := h
  intro d hd
  cases w with
  | nil => exact Option.some.inj hd ▸ .inr hc
  | cons e w => exact Option.some.inj hd ▸ .inl (hw e List.mem_cons_self)

lemma skipBlanks_skipBlanks (r : List Char) : skipBlanks (skipBlanks r) = skipBlanks r :=
  List.dropWhile_idempotent ..

lemma skipValue_skipBlanks (n : Nat) (r : List Char) : skipValue n (skipBlanks r) = skipValue n r := by
  cases n with
  | zero => rfl
  | succ n => rw [skipValue,skipValue,skipBlanks_skipBlanks]

lemma skipItems_skipBlanks (n : Nat) (r : List Char) : skipItems n (skipBlanks r) = skipItems n r := by
  cases n with
  | zero => rfl
  | succ n => rw [skipItems,skipItems,skipValue_skipBlanks]

lemma skipMembers_skipBlanks (n : Nat) (r : List Char) : skipMembers n (skipBlanks r) = skipMembers n r := by
  cases n with
  | zero => rfl
  | succ n => rw [skipMembers,skipMembers,skipBlanks_skipBlanks]

lemma skipWord_append (word r : List Char) : skipWord word (word ++ r) = some r := by
  rw [skipWord,if_pos (List.isPrefixOf_iff_prefix.mpr (List.prefix_append word r)),List.drop_left]

section Readers

variable {n : Nat}

/-- A value that begins with this character is a word or a number. -/
lemma skipValue_other {c : Char} (hblank : isBlank c = false) (hmark : c ≠ '"') (harray : c ≠ '[')
    (hobject : c ≠ '{') (u : List Char) : skipValue (n+1) (c :: u) = match word? c with
      | some word => skipWord word (c :: u)
      | none => (number? (c :: u)).map (·.2) := by
  rw [skipValue,skipBlanks_of_not_isBlank hblank]
  exact (if_neg hmark).trans ((if_neg harray).trans (if_neg hobject))

lemma skipValue_array (u : List Char) : skipValue (n+1) ('[' :: u) = match skipBlanks u with
    | ']' :: r => some r
    | r => skipItems n r := by
  rw [skipValue,skipBlanks_of_not_isBlank (by rfl)]
  rfl

lemma skipValue_object (u : List Char) : skipValue (n+1) ('{' :: u) = match skipBlanks u with
    | '}' :: r => some r
    | r => skipMembers n r := by
  rw [skipValue,skipBlanks_of_not_isBlank (by rfl)]
  rfl

/-- No item begins with the end of an array. -/
lemma skipItems_end (u : List Char) : skipItems n (']' :: u) = none := by
  cases n with
  | zero => rfl
  | succ n =>
    cases n with
    | zero => rfl
    | succ n =>
      rw [skipItems,skipValue_other (by rfl) (by decide) (by decide) (by decide)]
      rfl

lemma skipMembers_end (u : List Char) : skipMembers n ('}' :: u) = none := by
  cases n <;> rfl

lemma skipValue_word (ht : t = "null".toList ∨ t = "true".toList ∨ t = "false".toList) (r : List Char) :
    skipValue (n+1) (t ++ r) = some r := by
  obtain ⟨c,u,hcons,hword,hblank,hmark,harray,hobject⟩ : ∃ c u, t = c :: u ∧ word? c = some t ∧ isBlank c = false ∧
      c ≠ '"' ∧ c ≠ '[' ∧ c ≠ '{' := by
    rcases ht with rfl | rfl | rfl
    · exact ⟨'n',['u','l','l'],by decide⟩
    · exact ⟨'t',['r','u','e'],by decide⟩
    · exact ⟨'f',['a','l','s','e'],by decide⟩
  have happend : t ++ r = c :: (u ++ r) := by rw [hcons,List.cons_append]
  rw [happend,skipValue_other hblank hmark harray hobject,hword]
  exact happend ▸ skipWord_append t r

lemma NumberText.exists_cons (h : NumberText t) : ∃ c u, t = c :: u ∧ (c = '-' ∨ c.isDigit) := by
  cases h with
  | mk hsign hwhole _ _ =>
    rcases hsign with rfl | rfl
    · obtain ⟨c,u,rfl⟩ := List.exists_cons_of_ne_nil hwhole.isDigits.1
      exact ⟨c,_,rfl,.inr (hwhole.isDigits.2 c List.mem_cons_self)⟩
    · exact ⟨'-',_,rfl,.inl rfl⟩

/-- The first character of a number is no other one. -/
lemma ne_of_first {c d : Char} (hc : c = '-' ∨ c.isDigit) (hdigit : d.isDigit = false) (hminus : d ≠ '-') : c ≠ d := by
  rcases hc with rfl | hc
  · exact hminus.symm
  · exact ne_of_isDigit hc hdigit

lemma not_isBlank_of_first {c : Char} (hc : c = '-' ∨ c.isDigit) : isBlank c = false := by
  simp [isBlank,ne_of_first hc (d := ' ') rfl (by decide),ne_of_first hc (d := '\n') rfl (by decide),
    ne_of_first hc (d := '\t') rfl (by decide),ne_of_first hc (d := '\r') rfl (by decide)]

lemma skipValue_number (h : NumberText t) (hr : Stops r) : skipValue (n+1) (t ++ r) = some r := by
  obtain ⟨x,hx⟩ := exists_number? h hr
  obtain ⟨c,u,rfl,hc⟩ := h.exists_cons
  have hword : word? c = none := by
    simp [word?,ne_of_first hc (d := 'n') rfl (by decide),ne_of_first hc (d := 't') rfl (by decide),
      ne_of_first hc (d := 'f') rfl (by decide)]
  rw [List.cons_append] at hx ⊢
  rw [skipValue_other (not_isBlank_of_first hc) (ne_of_first hc rfl (by decide)) (ne_of_first hc rfl (by decide))
    (ne_of_first hc rfl (by decide)),hword,hx]
  rfl

/-- What the reader of an object does behind a member, where `n` calls are left. -/
def behindMember (n : Nat) : List Char → Option (List Char)
  | ',' :: r => skipMembers n r
  | '}' :: r => some r
  | _ => none

lemma skipMembers_member {before name behind : List Char} (hbefore : White before) (hname : Body name)
    (hbehind : White behind) (hitem : (skipValue n (t ++ r)).map skipBlanks = some r) :
    skipMembers (n+1) (before ++ '"' :: (name ++ '"' :: (behind ++ ':' :: t)) ++ r) = behindMember n r := by
  obtain ⟨u,hvalue,hu⟩ := Option.map_eq_some_iff.mp hitem
  have htext : before ++ '"' :: (name ++ '"' :: (behind ++ ':' :: t)) ++ r =
      before ++ '"' :: (name ++ '"' :: (behind ++ ':' :: (t ++ r))) := by simp
  rw [htext,skipMembers,skipBlanks_white hbefore,skipBlanks_of_not_isBlank (by rfl)]
  simp only [skipText_body hname,Option.bind_eq_bind,Option.bind_some,skipBlanks_white hbehind,
    skipBlanks_of_not_isBlank (show isBlank ':' = false from rfl),hvalue,hu]
  rfl

end Readers

/-- How a text of each form is passed over, if enough calls are left. Two of them at most are made for a character. -/
def PassedOver : Form → List Char → Prop
  | .value,t => ∀ n r, 2*t.length ≤ n+2 → Stops r → skipValue (n+1) (t ++ r) = some r
  | .item _,t => ∀ n r, 2*t.length ≤ n+2 → Closes r → (skipValue (n+1) (t ++ r)).map skipBlanks = some r
  | .items,t => ∀ n r, 2*t.length ≤ n+1 → skipItems (n+2) (t ++ ']' :: r) = some r
  | .member _,t => ∀ n r, 2*t.length ≤ n+2 → Closes r → skipMembers (n+2) (t ++ r) = behindMember (n+1) r
  | .members _,t => ∀ n r, 2*t.length ≤ n+1 → skipMembers (n+2) (t ++ '}' :: r) = some r

/-- Values of any kind and depth are passed over up to their ends. -/
theorem passedOver {f : Form} (h : Phrase f t) : PassedOver f t := by
  induction h with
  | word isWord => exact fun n r _ _ => skipValue_word isWord r
  | number isNumber => exact fun n r _ hr => skipValue_number isNumber hr
  | text isBody =>
    intro n r _ _
    rw [List.cons_append,List.append_assoc,List.singleton_append,skipValue,skipBlanks_of_not_isBlank (by rfl)]
    exact skipText_body isBody r
  | emptyArray white =>
    intro n r _ _
    rw [List.cons_append,List.append_assoc,List.singleton_append,skipValue_array,skipBlanks_white white,
      skipBlanks_of_not_isBlank (by rfl)]
    rfl
  | @array t items ih =>
    intro n r hn _
    simp only [List.length_cons,List.length_append] at hn
    obtain ⟨n,rfl⟩ := Nat.exists_eq_add_of_le' (show 2 ≤ n by omega)
    have hitems := ih n r (by omega)
    rw [← skipItems_skipBlanks] at hitems
    rw [List.cons_append,List.append_assoc,List.singleton_append,skipValue_array]
    split
    · next u hu =>
      rw [hu,skipItems_end] at hitems
      cases hitems
    · exact hitems
  | emptyObject white =>
    intro n r _ _
    rw [List.cons_append,List.append_assoc,List.singleton_append,skipValue_object,skipBlanks_white white,
      skipBlanks_of_not_isBlank (by rfl)]
    rfl
  | @object ms t members ih =>
    intro n r hn _
    simp only [List.length_cons,List.length_append] at hn
    obtain ⟨n,rfl⟩ := Nat.exists_eq_add_of_le' (show 2 ≤ n by omega)
    have hmembers := ih n r (by omega)
    rw [← skipMembers_skipBlanks] at hmembers
    rw [List.cons_append,List.append_assoc,List.singleton_append,skipValue_object]
    split
    · next u hu =>
      rw [hu,skipMembers_end] at hmembers
      cases hmembers
    · exact hmembers
  | @item before v after white_before value white_after ih =>
    intro n r hn hr
    simp only [List.length_append] at hn
    have hvalue := ih n (after ++ r) (by omega) (hr.stops white_after)
    rw [← skipValue_skipBlanks,List.append_assoc,List.append_assoc,skipBlanks_white white_before,skipValue_skipBlanks,
      hvalue,Option.map_some,skipBlanks_white white_after,hr.skipBlanks_eq]
  | lastItem item ih =>
    intro n r hn
    obtain ⟨u,hvalue,hu⟩ := Option.map_eq_some_iff.mp (ih n (']' :: r) (by omega) ⟨_,_,rfl,.inr (.inl rfl)⟩)
    rw [skipItems,hvalue,Option.bind_eq_bind,Option.bind_some,hu]
    rfl
  | @moreItems v t u item items ihi ih =>
    intro n r hn
    simp only [List.length_append,List.length_cons] at hn
    obtain ⟨n,rfl⟩ := Nat.exists_eq_add_of_le' (show 1 ≤ n by omega)
    obtain ⟨x,hvalue,hx⟩ := Option.map_eq_some_iff.mp
      (ihi (n+1) (',' :: (u ++ ']' :: r)) (by omega) ⟨_,_,rfl,.inl rfl⟩)
    rw [List.append_assoc,List.cons_append,skipItems,hvalue,Option.bind_eq_bind,Option.bind_some,hx]
    exact ih n r (by omega)
  | @member before name behind v t white_before isBody white_behind item ih =>
    intro n r hn hr
    simp only [List.length_append,List.length_cons] at hn
    exact skipMembers_member white_before isBody white_behind (ih n r (by omega) hr)
  | lastMember member ih =>
    intro n r hn
    exact ih n ('}' :: r) (by omega) ⟨_,_,rfl,.inr (.inr rfl)⟩
  | @moreMembers m ms t u member members ihm ih =>
    intro n r hn
    simp only [List.length_append,List.length_cons] at hn
    obtain ⟨n,rfl⟩ := Nat.exists_eq_add_of_le' (show 1 ≤ n by omega)
    rw [List.append_assoc,List.cons_append]
    exact (ihm (n+1) (',' :: (u ++ '}' :: r)) (by omega) ⟨_,_,rfl,.inl rfl⟩).trans (ih n r (by omega))

/-- An item is passed over up to what stands behind it. -/
lemma skipAny_item {v : List Char} (h : Phrase (.item v) t) (hr : Closes r) :
    (skipAny (t ++ r)).map skipBlanks = some r := by
  have hlength := @List.length_append _ t r
  exact passedOver h (2*(t ++ r).length+1) r (by omega) hr

end Keyring.Json
