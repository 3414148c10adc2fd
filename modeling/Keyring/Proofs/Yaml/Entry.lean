import Keyring.Proofs.Yaml.Value

/-! Lists of records as they are written: every entry of a list in the first column is a mapping, and every field of it
stands on a line of its own. -/
namespace Keyring.Yaml

/-- A field, with the spelling of its value. A name that is longer might not be found to be one. -/
structure Field where
  name : List Char
  spelling : List Char
  text : List Char
  plain : Bool
  name_ne : name ≠ []
  isPlainWord_of_mem : ∀ c ∈ name, isPlainWord c
  length_name : name.length ≤ 1000
  spells : Spells spelling text plain

namespace Field

def line (f : Field) : List Char := f.name ++ [':',' '] ++ f.spelling

def tokens (f : Field) : List Token := [.key,.scalar f.name true,.value,.scalar f.text f.plain]

end Field

namespace Scan

/-- A scan behind the name of a field whose name begins at `m`, `n` characters further on. -/
def behindName (m : Mark) (n : Nat) (name rest : List Char) (is : List Nat) : Scan :=
  { between (m.right n) rest is false with
    held := [.place 0 m (is.head? == some m.column),.token (.scalar name true)] }

/-- The open blocks at a field of a mapping at the column `k`. The field begins the mapping if none is open there. -/
def opened (k : Nat) (is : List Nat) : List Nat := if is.head? = some k then is else k :: is

/-- The token of a mapping that begins at the column `k`. -/
def begins (k : Nat) (is : List Nat) : List Token := if is.head? = some k then [] else [.blockMappingStart]

lemma head?_opened (k : Nat) (is : List Nat) : (opened k is).head? = some k := by
  rw [opened]
  split_ifs with h
  · exact h
  · rfl

variable {m : Mark} {is : List Nat}

lemma expire_behindName {n : Nat} (hn : n ≤ 1024) (name rest : List Char) :
    (behindName m n name rest is).expire = some (behindName m n name rest is) := by
  have hstale : ¬m.bytes + 1024 < m.bytes + n := by omega
  simp [behindName,expire,Held.giveUp,Held.isStale,Held.isRequired,between,Mark.right,hstale]

lemma step_name (f : Field) (his : Within is m.column) (r : List Char) :
    (between m (f.name ++ ':' :: ' ' :: r) is true).step =
      some ([],behindName m f.name.length f.name (':' :: ' ' :: r) is) := by
  obtain ⟨c,v,hname⟩ := List.exists_cons_of_ne_nil f.name_ne
  have hword := f.isPlainWord_of_mem
  have hlength := f.length_name
  generalize f.name = name at *
  subst hname
  have hc := hword c List.mem_cons_self
  have hplain (indent : Nat) : plain [] false indent ⟨m,c :: (v ++ ':' :: ' ' :: r)⟩ =
      some (c :: v,false,⟨m.right (c :: v).length,':' :: ' ' :: r⟩) := by
    rw [plain,← List.cons_append,plainFrom_word hword]
    simp [plainFrom,isSpace,isBlank,isBreak,isStrayColon,endsPlain,atSpace,Gap.none,Gap.isBroken,before]
  have htoken : (between m (c :: (v ++ ':' :: ' ' :: r)) is true).token c (v ++ ':' :: ' ' :: r) =
      some (behindName m (c :: v).length (c :: v) (':' :: ' ' :: r) is) := by
    rw [token_of_isPlainWord hc]
    simp [plainScalar,savePlace,dropPlace,Held.giveUp,between,inFlow,column,hplain,allow,push,behindName]
  rw [List.cons_append,step_between (nextFrom_of_isPlainWord hc _ _ _ _) his,htoken,Option.bind_some,release,
    expire_behindName (by omega)]
  rfl

/-- Blocks that are open at a column or left of it take in a block at the column, unless one is open there. -/
lemma Within.all_lt {k : Nat} (his : Within is k) : is.head?.all (· < k) = !(is.head? == some k) := by
  cases is with
  | nil => rfl
  | cons i is =>
    have hi := his i rfl
    by_cases h : i = k
    · simp [h]
    · simp [h,Nat.lt_of_le_of_ne hi h]

/-- The colon behind a name makes a field of it, and begins a mapping if none is open at its column. -/
lemma step_colon (his : Within is m.column) {n : Nat} (hn : n ≤ 1024) (name r : List Char) :
    (behindName m n name (':' :: ' ' :: r) is).step =
      some (begins m.column is ++ [.key,.scalar name true,.value],
        between (m.right (n+1)) (' ' :: r) (opened m.column is) false) := by
  have hnext : (behindName m n name (':' :: ' ' :: r) is).toNext = behindName m n name (':' :: ' ' :: r) is :=
    toNext_of_nextFrom (by simp [behindName,between,inFlow,nextFrom,isBreak])
  have hclose : (behindName m n name (':' :: ' ' :: r) is).unroll (m.column+n+1) =
      behindName m n name (':' :: ' ' :: r) is := by
    simp [unroll,behindName,between,inFlow,his.closeFrom_eq (show m.column < m.column+n+1 by omega)]
  have htoken : (behindName m n name (':' :: ' ' :: r) is).token ':' (' ' :: r) =
      (behindName m n name (':' :: ' ' :: r) is).value := by
    simp [token,isDocumentMark,atSpace,isSpace,isBlank]
  rw [step_eq,next_of_rest hnext (expire_behindName hn name _) hclose rfl rfl,htoken,opened,begins]
  by_cases hopen : is.head? = some m.column
  · simp [value,behindName,between,Held.columnAt?,opensBlock,inFlow,hopen,Held.fill,Held.isAt,allow,skip,push,release,
      expire,Held.giveUp,Held.isStale,Held.isRequired,Held.released]
  · simp [value,behindName,between,Held.columnAt?,opensBlock,his.all_lt,inFlow,hopen,Held.fill,Held.isAt,allow,skip,
      push,release,expire,Held.giveUp,Held.isStale,Held.isRequired,Held.released]

/-- A field at its column, with the mapping that it may begin. -/
lemma emits_field (f : Field) (his : Within is m.column) {r : List Char} (hr : AtLineEnd r)
    (hend : NextWithin m.column (m.right f.line.length) r) :
    Emits 3 (between m (f.line ++ r) is true) (begins m.column is ++ f.tokens)
      (between (m.right f.line.length) r (opened m.column is) false) := by
  have hn : f.name.length ≤ 1024 := by
    have := f.length_name
    omega
  have hlength : f.line.length = f.name.length+1+1+f.spelling.length := by
    simp [Field.line]
    omega
  have hline : f.line ++ r = f.name ++ ':' :: ' ' :: (f.spelling ++ r) := by simp [Field.line]
  -- The blank behind the colon is skipped.
  have hblank (is : List Nat) : (between (m.right (f.name.length+1)) (' ' :: (f.spelling ++ r)) is false).toNext =
      (between (m.right (f.name.length+1+1)) (f.spelling ++ r) is false).toNext := by
    have hafter : (m.right (f.name.length+1)).after ' ' = m.right (f.name.length+1+1) := by
      rw [Mark.after_of_isPrintable (by decide),Mark.right_right]
    have hstep : nextFrom false false false (m.right (f.name.length+1)) (' ' :: (f.spelling ++ r)) =
        nextFrom false false false (m.right (f.name.length+1+1)) (f.spelling ++ r) := by
      rw [nextFrom]
      simp [isBreak,hafter]
    exact toNext_between_congr hstep is
  have hend' : NextWithin m.column ((m.right (f.name.length+1+1)).right f.spelling.length) r := by
    rw [Mark.right_right,← hlength]
    exact hend
  rw [hline]
  obtain ⟨js,hjs⟩ := List.head?_eq_some_iff.mp (head?_opened m.column is)
  have hvalue := f.spells (m.right (f.name.length+1+1)) m.column js r (by simp) (by simp) hr hend'
  rw [Mark.right_right,← hlength,← hjs] at hvalue
  have h := Emits.step (step_name f his (f.spelling ++ r)) rfl
    (.step (step_colon his hn f.name (f.spelling ++ r)) rfl (hvalue.of_toNext (hblank _)))
  simpa [Field.tokens] using h

end Scan

/-- The fields behind the first one, each on its line. -/
def Field.lines (fs : List Field) : List Char := fs.flatMap fun f => [' ',' '] ++ f.line ++ ['\n']

/-- The same fields, up to the end of the last line. -/
def Field.indented (fs : List Field) : List Char := fs.flatMap fun f => ['\n',' ',' '] ++ f.line

/-- Fields at the column `k`, each on a line of its own, behind a line that is to be ended. -/
def Field.below (k : Nat) (fs : List Field) : List Char := fs.flatMap fun f => '\n' :: (List.replicate k ' ' ++ f.line)

lemma Field.below_cons (k : Nat) (f : Field) (fs : List Field) (r : List Char) :
    Field.below k (f :: fs) ++ r = '\n' :: (List.replicate k ' ' ++ (f.line ++ (Field.below k fs ++ r))) := by
  simp [Field.below]

lemma Field.indented_eq (fs : List Field) : Field.indented fs = Field.below 2 fs := rfl

lemma Field.lines_eq (fs : List Field) (r : List Char) :
    '\n' :: (Field.lines fs ++ r) = Field.indented fs ++ '\n' :: r := by
  induction fs with
  | nil => rfl
  | cons f fs ih =>
    simp only [Field.lines,Field.indented,List.flatMap_cons,List.append_assoc,List.cons_append,List.nil_append] at ih ⊢
    rw [← ih]

/-- An entry of a list of records. -/
structure Entry where
  first : Field
  others : List Field

namespace Entry

def text (e : Entry) : List Char := ['-',' '] ++ e.first.line ++ ['\n'] ++ Field.lines e.others

/-- The text up to the end of the last line. -/
def body (e : Entry) : List Char := ['-',' '] ++ e.first.line ++ Field.indented e.others

def tokens (e : Entry) : List Token :=
  [.blockEntry,.blockMappingStart] ++ e.first.tokens ++ e.others.flatMap Field.tokens

/-- How many tokens are read for an entry. -/
def count (e : Entry) : Nat := 1+3+3*e.others.length

/-- A text that is at its end, or in front of an entry. -/
def Precedes (r : List Char) : Prop := r = [] ∨ ∃ r', r = '-' :: r'

lemma precedes_flatMap (es : List Entry) {r : List Char} (hr : Precedes r) : Precedes (es.flatMap text ++ r) := by
  cases es with
  | nil => exact hr
  | cons e es => exact Or.inr ⟨_,rfl⟩

lemma text_append (e : Entry) (r : List Char) :
    e.text ++ r = '-' :: ' ' :: (e.first.line ++ ('\n' :: (Field.lines e.others ++ r))) := by
  simp [text]

lemma text_eq (e : Entry) : e.text = e.body ++ ['\n'] := by
  have h := Field.lines_eq e.others []
  rw [List.append_nil] at h
  simp [text,body,h]

/-- What may stand behind an entry: the line ends, and what follows it begins in the first column. -/
def Ends (r : List Char) : Prop := AtLineEnd r ∧ ∀ m, NextWithin 0 m r

end Entry

namespace Scan

lemma nextFrom_of_precedes {r : List Char} (hr : Entry.Precedes r) (flow a : Bool) (m : Mark) :
    nextFrom flow false a m r = (a,⟨m,r⟩) := by
  rcases hr with rfl | ⟨r,rfl⟩
  · rfl
  · simp [nextFrom,isBreak]

lemma nextFrom_blank (flow a : Bool) (m : Mark) (r : List Char) :
    nextFrom flow false a m (' ' :: r) = nextFrom flow false a (m.right 1) r := by
  have hafter : m.after ' ' = m.right 1 := Mark.after_of_isPrintable (by decide) m
  rw [nextFrom,if_neg (by decide),if_neg Bool.false_ne_true,if_pos (Or.inl rfl),hafter]

lemma nextFrom_blanks (k : Nat) (f : Field) (m : Mark) (r : List Char) :
    nextFrom false false true m (List.replicate k ' ' ++ (f.line ++ r)) = (true,⟨m.right k,f.line ++ r⟩) := by
  induction k generalizing m with
  | zero =>
    obtain ⟨c,v,hname⟩ := List.exists_cons_of_ne_nil f.name_ne
    have hline : f.line ++ r = c :: (v ++ [':',' '] ++ f.spelling ++ r) := by simp [Field.line,hname]
    have hc := f.isPlainWord_of_mem c (by simp [hname])
    rw [List.replicate_zero,List.nil_append,hline,nextFrom_of_isPlainWord hc]
    rfl
  | succ k ih => rw [List.replicate_succ,List.cons_append,nextFrom_blank,ih,Mark.right_right,Nat.add_comm]

lemma ends_of_precedes {r : List Char} (hr : Entry.Precedes r) : Entry.Ends ('\n' :: r) := by
  refine ⟨.inr ⟨r,rfl⟩,fun m => ?_⟩
  rw [NextWithin,nextFrom_break,nextFrom_of_precedes hr]
  rcases hr with rfl | ⟨r,rfl⟩
  · exact .inl rfl
  · exact .inr ⟨Nat.le_refl 0,by simp⟩

/-- Behind a field stands the next field, or what follows all of them. -/
lemma nextWithin_below (k : Nat) (fs : List Field) {r : List Char} (hr : Entry.Ends r) (m : Mark) :
    NextWithin k m (Field.below k fs ++ r) := by
  cases fs with
  | nil => exact (hr.2 m).imp_right fun h => ⟨Nat.le_trans h.1 (Nat.zero_le k),h.2⟩
  | cons f fs =>
    obtain ⟨c,v,hname⟩ := List.exists_cons_of_ne_nil f.name_ne
    have hc := f.isPlainWord_of_mem c (by simp [hname])
    rw [NextWithin,Field.below_cons,nextFrom_break,Bool.not_false,Bool.or_true,nextFrom_blanks]
    refine Or.inr ⟨Nat.le_of_eq (Nat.zero_add k),?_⟩
    simpa [Field.line,hname] using ne_of_isPlainWord (d := '\t') hc (by decide)

lemma atLineEnd_below (k : Nat) (fs : List Field) {r : List Char} (hr : AtLineEnd r) :
    AtLineEnd (Field.below k fs ++ r) := by
  cases fs with
  | nil => exact hr
  | cons f fs => exact .inr ⟨_,rfl⟩

lemma emits_below (k : Nat) (fs : List Field) (m : Mark) (is : List Nat) {r : List Char} (hr : Entry.Ends r) :
    ∃ m' : Mark, Emits (3*fs.length) (between m (Field.below k fs ++ r) (k :: is) false)
      (fs.flatMap Field.tokens) (between m' r (k :: is) false) := by
  induction fs generalizing m with
  | nil => exact ⟨m,.space rfl⟩
  | cons f fs ih =>
    have hcolumn : (m.nextLine.right k).column = k := Nat.zero_add k
    have hopen : (k :: is).head? = some (m.nextLine.right k).column := congrArg some hcolumn.symm
    have hfield := emits_field f (@within_cons k _ is (Nat.le_of_eq hcolumn.symm)) (atLineEnd_below k fs hr.1)
      (hcolumn.symm ▸ nextWithin_below k fs hr _)
    rw [begins,if_pos hopen,opened,if_pos hopen,List.nil_append] at hfield
    obtain ⟨m',hrest⟩ := ih ((m.nextLine.right k).right f.line.length)
    refine ⟨m',?_⟩
    have hblanks := nextFrom_blanks k f m.nextLine (Field.below k fs ++ r)
    have hnext : nextFrom false false false m
          ('\n' :: (List.replicate k ' ' ++ (f.line ++ (Field.below k fs ++ r)))) =
        nextFrom false false true (m.nextLine.right k) (f.line ++ (Field.below k fs ++ r)) := by
      rw [nextFrom_break,Bool.not_false,Bool.or_true]
      exact hblanks.trans (nextFrom_nextFrom false hblanks).symm
    rw [Field.below_cons,List.flatMap_cons,List.length_cons,Nat.mul_succ,Nat.add_comm]
    exact (hfield.trans hrest).of_toNext (toNext_between_congr hnext (k :: is))

/-- Where blocks at the columns `is` are open, an entry in the first column closes the innermost `k` of them. Then
`js` are open around the list of the entry, which is `opening` if it begins with it. -/
def Closes (is : List Nat) (k : Nat) (opening : List Token) (js : List Nat) : Prop :=
  closeFrom 1 is = ([],List.replicate k (.token .blockEnd)) ∧ opening = [.blockSequenceStart] ∧ js = [] ∨
    closeFrom 1 is = (0 :: js,List.replicate k (.token .blockEnd)) ∧ opening = []

variable {m : Mark} {is js : List Nat} {k : Nat} {opening : List Token} {r : List Char}

/-- The hyphen of an entry. -/
lemma step_hyphen (hm : m.column = 0) (hk : Closes is k opening js) (r : List Char) :
    (between m ('-' :: ' ' :: r) is true).step =
      some (List.replicate k .blockEnd ++ (opening ++ [.blockEntry]),
        between (m.right 1) (' ' :: r) (0 :: js) true) := by
  have hnext : (between m ('-' :: ' ' :: r) is true).toNext = between m ('-' :: ' ' :: r) is true :=
    toNext_between (nextFrom_of_precedes (Or.inr ⟨_,rfl⟩) false true m)
  have hkind (s : Scan) : s.token '-' (' ' :: r) = s.blockEntry := by
    have hmark : isDocumentMark ('-' :: ' ' :: r) = false := rfl
    simp [token,hmark,atSpace,isSpace,isBlank]
  have hunroll (base : List Nat) (h : closeFrom 1 is = (base,List.replicate k (.token .blockEnd))) :
      (between m ('-' :: ' ' :: r) is true).unroll (m.column+1) =
        releasing m ('-' :: ' ' :: r) base true (List.replicate k .blockEnd) := by
    rw [hm]
    exact unroll_releasing h m _ true []
  have hentry (base : List Nat)
      (h : base = [] ∧ opening = [.blockSequenceStart] ∧ js = [] ∨ base = 0 :: js ∧ opening = []) :
      (releasing m ('-' :: ' ' :: r) base true (List.replicate k .blockEnd)).blockEntry =
        some (releasing (m.right 1) (' ' :: r) (0 :: js) true
          (List.replicate k .blockEnd ++ (opening ++ [.blockEntry]))) := by
    have hroll : (releasing m ('-' :: ' ' :: r) base true
        (List.replicate k .blockEnd)).rollAllowed .blockSequenceStart =
        some (releasing m ('-' :: ' ' :: r) (0 :: js) true (List.replicate k .blockEnd ++ opening)) := by
      rcases h with ⟨rfl,rfl,rfl⟩ | ⟨rfl,rfl⟩ <;>
        simp [releasing,between,rollAllowed,inFlow,roll,opensBlock,column,hm,push]
    have hdrop : (releasing m ('-' :: ' ' :: r) (0 :: js) true (List.replicate k .blockEnd ++ opening)).dropPlace =
        some (releasing m ('-' :: ' ' :: r) (0 :: js) true (List.replicate k .blockEnd ++ opening)) :=
      dropPlace_of_tokens rfl
    rw [blockEntry,hroll]
    simp only [Option.bind_eq_bind,Option.bind_some,hdrop]
    simp [releasing,between,allow,skip,push]
  rcases hk with ⟨hclose,h⟩ | ⟨hclose,h⟩
  · rw [step_eq,next_of_rest hnext rfl (hunroll _ hclose) rfl rfl,hkind,hentry _ (Or.inl ⟨rfl,h⟩),
      Option.bind_some,release_of_tokens rfl]
    rfl
  · rw [step_eq,next_of_rest hnext rfl (hunroll _ hclose) rfl rfl,hkind,hentry _ (Or.inr ⟨rfl,h⟩),
      Option.bind_some,release_of_tokens rfl]
    rfl

/-- What stands behind the hyphen of an entry, up to the end of its last line. -/
lemma emits_behindHyphen (e : Entry) (hm : m.column = 0) (js : List Nat) (hr : Entry.Ends r) :
    ∃ m' : Mark, Emits (3+3*e.others.length)
      (between (m.right 1) (' ' :: (e.first.line ++ (Field.indented e.others ++ r))) (0 :: js) true)
      (.blockMappingStart :: (e.first :: e.others).flatMap Field.tokens) (between m' r (2 :: 0 :: js) false) := by
  have hcolumn : ((m.right 1).right 1).column = 2 := by simp [hm]
  have hclosed : (0 :: js).head? ≠ some ((m.right 1).right 1).column := by simp
  have hend : NextWithin ((m.right 1).right 1).column (((m.right 1).right 1).right e.first.line.length)
      (Field.below 2 e.others ++ r) := by
    rw [hcolumn]
    exact nextWithin_below 2 e.others hr _
  have hfield := emits_field e.first (@within_cons 0 _ js (Nat.zero_le _)) (atLineEnd_below 2 e.others hr.1) hend
  rw [begins,if_neg hclosed,opened,if_neg hclosed,hcolumn] at hfield
  obtain ⟨m',hothers⟩ := emits_below 2 e.others (((m.right 1).right 1).right e.first.line.length) (0 :: js) hr
  refine ⟨m',?_⟩
  have hblank := toNext_between_congr (nextFrom_blank false true (m.right 1)
    (e.first.line ++ (Field.below 2 e.others ++ r))) (0 :: js)
  rw [Field.indented_eq]
  simpa using (hfield.trans hothers).of_toNext hblank

/-- An entry up to the end of its last line, and what is open behind it. -/
lemma emits_body (e : Entry) (hm : m.column = 0) (hk : Closes is k opening js) (hr : Entry.Ends r) :
    ∃ m' : Mark, Emits e.count (between m (e.body ++ r) is true)
      (List.replicate k .blockEnd ++ (opening ++ e.tokens)) (between m' r (2 :: 0 :: js) false) := by
  obtain ⟨m',hcontent⟩ := emits_behindHyphen e hm js hr
  refine ⟨m',?_⟩
  have h := Emits.step (step_hyphen hm hk _) rfl hcontent
  have hcount : e.count = 3+3*e.others.length+1 := by
    simp only [Entry.count]
    omega
  have hbody : e.body ++ r = '-' :: ' ' :: (e.first.line ++ (Field.indented e.others ++ r)) := by simp [Entry.body]
  rw [hbody]
  simpa [hcount,Entry.tokens] using h

/-- What stands behind the hyphen of an entry, and what is open behind it. -/
lemma emits_content (e : Entry) (hm : m.column = 0) (js : List Nat) (hr : Entry.Precedes r) :
    ∃ m' : Mark, m'.column = 0 ∧ Emits (3+3*e.others.length)
      (between (m.right 1) (' ' :: (e.first.line ++ ('\n' :: (Field.lines e.others ++ r)))) (0 :: js) true)
      (.blockMappingStart :: (e.first :: e.others).flatMap Field.tokens) (between m' r (2 :: 0 :: js) true) := by
  obtain ⟨m',h⟩ := emits_behindHyphen e hm js (ends_of_precedes hr)
  refine ⟨m'.nextLine,rfl,?_⟩
  have hbreak := toNext_between_congr (nextFrom_break false false m' r) (2 :: 0 :: js)
  rw [Field.lines_eq]
  simpa using h.trans (.space hbreak)

/-- An entry, and what is open behind it. -/
lemma emits_entry (e : Entry) (hm : m.column = 0) (hk : Closes is k opening js) (hr : Entry.Precedes r) :
    ∃ m' : Mark, m'.column = 0 ∧ Emits e.count (between m (e.text ++ r) is true)
      (List.replicate k .blockEnd ++ (opening ++ e.tokens)) (between m' r (2 :: 0 :: js) true) := by
  obtain ⟨m',h⟩ := emits_body e hm hk (ends_of_precedes hr)
  refine ⟨m'.nextLine,rfl,?_⟩
  have hbreak := toNext_between_congr (nextFrom_break false false m' r) (2 :: 0 :: js)
  rw [Entry.text_eq,List.append_assoc,List.singleton_append]
  simpa using h.trans (.space hbreak)

/-- Entries behind an entry. Each of them ends the one before it. -/
lemma emits_entries (es : List Entry) (hm : m.column = 0) (hr : Entry.Precedes r) :
    ∃ m' : Mark, m'.column = 0 ∧ Emits (es.map Entry.count).sum
      (between m (es.flatMap Entry.text ++ r) [2,0] true)
      (es.flatMap fun e => .blockEnd :: e.tokens) (between m' r [2,0] true) := by
  induction es generalizing m with
  | nil => exact ⟨m,hm,.space rfl⟩
  | cons e es ih =>
    have hrest : Entry.Precedes (es.flatMap Entry.text ++ r) := Entry.precedes_flatMap es hr
    have hcloses : Closes [2,0] 1 [] [] := Or.inr ⟨rfl,rfl⟩
    obtain ⟨m₁,hm₁,he⟩ := emits_entry e hm hcloses hrest
    obtain ⟨m₂,hm₂,hes⟩ := ih hm₁
    refine ⟨m₂,hm₂,?_⟩
    have h := he.trans hes
    simpa using h

end Scan

lemma Field.three_le_line (f : Field) : 3 ≤ f.line.length := by
  have hname : 0 < f.name.length := List.length_pos_iff.mpr f.name_ne
  simp only [Field.line,List.length_append,List.length_cons,List.length_nil]
  omega

lemma Field.three_le_below (k : Nat) (fs : List Field) : 3*fs.length ≤ (Field.below k fs).length := by
  induction fs with
  | nil => exact Nat.le_refl 0
  | cons f fs ih =>
    have hf := f.three_le_line
    simp only [Field.below,List.flatMap_cons,List.length_append,List.length_cons] at ih ⊢
    omega

lemma Entry.count_le_body (e : Entry) : e.count ≤ e.body.length := by
  have hfirst := e.first.three_le_line
  have hrest := Field.three_le_below 2 e.others
  simp only [Entry.count,Entry.body,Field.indented_eq,List.length_append,List.length_cons,List.length_nil]
  omega

lemma Entry.count_le (e : Entry) : e.count ≤ e.text.length := by
  rw [Entry.text_eq,List.length_append]
  exact Nat.le_trans e.count_le_body (Nat.le_add_right _ _)

lemma Entry.sum_count_le (es : List Entry) : (es.map Entry.count).sum ≤ (es.flatMap Entry.text).length := by
  induction es with
  | nil => exact Nat.le_refl 0
  | cons e es ih =>
    have := e.count_le
    simp only [List.map_cons,List.sum_cons,List.flatMap_cons,List.length_append]
    omega

/-- The end of an entry may be counted with the entry behind it. -/
lemma Entry.flatMap_blockEnd (es : List Entry) (r : List Token) :
    es.flatMap (fun e => .blockEnd :: e.tokens) ++ .blockEnd :: r =
      .blockEnd :: (es.flatMap (fun e => e.tokens ++ [.blockEnd]) ++ r) := by
  induction es with
  | nil => rfl
  | cons e es ih => simp [ih]

end Keyring.Yaml
