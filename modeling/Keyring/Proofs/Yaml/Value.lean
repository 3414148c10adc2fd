import Keyring.Proofs.Yaml.Scan
import Keyring.Proofs.Yaml.Source

/-! Scalars on one line, and the fields of a mapping that are made of them. -/
namespace Keyring.Yaml

/-- Characters that have no meaning of their own anywhere in a plain scalar. -/
def isPlainWord (c : Char) : Bool := c.isAlphanum || c == '_'

lemma ne_of_isPlainWord {c d : Char} (hc : isPlainWord c) (hd : isPlainWord d = false) : c ≠ d := by
  rintro rfl
  rw [hc] at hd
  cases hd

lemma isPrintable_of_isPlainWord {c : Char} (h : isPlainWord c) : isPrintable c := by
  simp only [isPlainWord,Char.isAlphanum,Char.isAlpha,Char.isUpper,Char.isLower,Char.isDigit,Bool.or_eq_true,
    Bool.and_eq_true,decide_eq_true_eq,beq_iff_eq,UInt32.le_iff_toNat_le] at h
  simp only [isPrintable,Bool.and_eq_true,decide_eq_true_eq,Char.toNat]
  rcases h with ((⟨h₁,h₂⟩ | ⟨h₁,h₂⟩) | ⟨h₁,h₂⟩) | rfl
  · exact ⟨Nat.le_trans (by decide) h₁,Nat.le_trans h₂ (by decide)⟩
  · exact ⟨Nat.le_trans (by decide) h₁,Nat.le_trans h₂ (by decide)⟩
  · exact ⟨Nat.le_trans (by decide) h₁,Nat.le_trans h₂ (by decide)⟩
  · decide

lemma isBreak_of_isPrintable {c : Char} (h : isPrintable c) : isBreak c = false := by
  have hne : ∀ d, isPrintable d = false → c ≠ d := by
    rintro d hd rfl
    rw [h] at hd
    cases hd
  simp [isBreak,hne '\n' (by decide),hne '\u2028' (by decide),hne '\u2029' (by decide)]

lemma isSpace_of_isPlainWord {c : Char} (h : isPlainWord c) : isSpace c = false := by
  rw [isSpace,isBreak_of_isPrintable (isPrintable_of_isPlainWord h)]
  simp [isBlank,ne_of_isPlainWord (d := ' ') h (by decide),ne_of_isPlainWord (d := '\t') h (by decide)]

lemma Mark.after_of_isPrintable {c : Char} (h : isPrintable c) (m : Mark) : m.after c = m.right 1 := by
  have hn : c.toNat ≤ 127 := by
    simp only [isPrintable,Bool.and_eq_true,decide_eq_true_eq] at h
    omega
  have hs : c.utf8Size = 1 := Char.utf8Size_eq_one_iff.mpr hn
  simp [Mark.after,isBreak_of_isPrintable h,Mark.right,hs]

@[simp] lemma Mark.right_right (m : Mark) (n k : Nat) : (m.right n).right k = m.right (n+k) := by
  simp [Mark.right,Nat.add_assoc]

@[simp] lemma Mark.column_right (m : Mark) (n : Nat) : (m.right n).column = m.column+n := rfl

@[simp] lemma before_nil {α : Type} (rest : Option (List Char × α)) : before [] rest = rest := by
  cases rest <;> rfl

@[simp] lemma before_before {α : Type} (t u : List Char) (rest : Option (List Char × α)) :
    before t (before u rest) = before (t ++ u) rest := by
  cases rest <;> simp [before]

/-- A text that is at its end, or at the end of a line. -/
def AtLineEnd (r : List Char) : Prop := r = [] ∨ ∃ r', r = '\n' :: r'

lemma plainFrom_word {v : List Char} (hv : ∀ c ∈ v, isPlainWord c) (indent : Nat) (m : Mark) (r : List Char) :
    plainFrom [] false indent .none m (v ++ r) =
      before v (plainFrom [] false indent .none (m.right v.length) r) := by
  induction v generalizing m with
  | nil => simp [Mark.right]
  | cons c v ih =>
    have hc := hv c List.mem_cons_self
    have hstray : isStrayColon false (c :: (v ++ r)) = false := by
      unfold isStrayColon
      split <;> rfl
    have hends : endsPlain false (c :: (v ++ r)) = false := by
      simp [endsPlain,ne_of_isPlainWord (d := ':') hc (by decide)]
    rw [List.cons_append,plainFrom]
    simp only [isSpace_of_isPlainWord hc,hstray,hends,Margin.lacks_nil,ne_eq,not_true_eq_false,
      Bool.false_eq_true,if_false,false_and]
    rw [Mark.after_of_isPrintable (isPrintable_of_isPlainWord hc),
      ih (fun d hd => hv d (List.mem_cons_of_mem c hd))]
    simp [Gap.text,Gap.none,Nat.add_comm]

lemma Gap.isBroken_push {g : Gap} (h : g.isBroken) (c : Char) : (g.push c).isBroken := by
  cases g with
  | blanks cs => cases h
  | breaks first more =>
    simp only [Gap.push]
    split <;> rfl

lemma Gap.ne_none {g : Gap} (h : g.isBroken) : g ≠ .none := by
  rintro rfl
  cases h

/-- A plain scalar ends in front of what stands left of its lines. -/
lemma plainFrom_of_left {margin : Margin} {flow : Bool} {indent : Nat} {gap : Gap} {m : Mark} {c : Char}
    (hc : isSpace c ≠ true) (h : gap ≠ .none ∧ ¬flow ∧ m.column < indent) (r : List Char) :
    plainFrom margin flow indent gap m (c :: r) = some ([],gap.isBroken,⟨m,c :: r⟩) := by
  rw [plainFrom,if_neg hc]
  exact if_pos h

/-- A character that does not end a plain scalar is taken in. -/
lemma plainFrom_of_taken {margin : Margin} {flow : Bool} {indent : Nat} {gap : Gap} {m : Mark} {c : Char}
    {r : List Char} (hc : isSpace c ≠ true) (hleft : ¬(gap ≠ .none ∧ ¬flow ∧ m.column < indent))
    (hlacks : ¬margin.lacks gap.ahead (c :: r))
    (hend : ¬(gap ≠ .none ∧ (m.column = 0 ∧ isDocumentMark (c :: r) ∨ c = '#')))
    (hstray : ¬isStrayColon flow (c :: r)) (hplain : ¬endsPlain flow (c :: r)) :
    plainFrom margin flow indent gap m (c :: r) =
      before (gap.text ++ [c]) (plainFrom margin flow indent .none (m.after c) r) := by
  rw [plainFrom,if_neg hc]
  exact (if_neg hleft).trans ((if_neg hlacks).trans ((if_neg hend).trans ((if_neg hstray).trans (if_neg hplain))))

/-- A plain scalar whose line is ended goes on up to the next token, if that stands further left. -/
lemma plainFrom_space {indent : Nat} (gap : Gap) {m : Mark} {r : List Char} {p : Cursor}
    (h : Scan.nextFrom false false true m r = (true,p)) (hgap : gap.isBroken) (hindent : 0 < indent)
    (hp : p.rest = [] ∨ p.mark.column < indent ∧ p.rest.head? ≠ some '\t') :
    ∃ q, plainFrom [] false indent gap m r = some ([],true,q) ∧
      Scan.nextFrom false false true q.mark q.rest = (true,p) := by
  induction r generalizing m gap with
  | nil =>
    refine ⟨⟨m,[]⟩,?_,h⟩
    simp [plainFrom,hgap]
  | cons c r ih =>
    have hstep := h
    rw [Scan.nextFrom] at hstep
    by_cases hb : isBreak c = true
    · rw [if_pos hb] at hstep
      have hafter : m.after c = m.nextLine := by simp [Mark.after,hb]
      have htab : c ≠ '\t' := by
        rintro rfl
        cases hb
      obtain ⟨q,hq,hn⟩ := ih _ hstep (Gap.isBroken_push hgap c)
      exact ⟨q,by simp [plainFrom,isSpace,hb,htab,hafter,hq],hn⟩
    rw [if_neg hb,if_neg Bool.false_ne_true] at hstep
    by_cases hsp : c = ' '
    · subst hsp
      rw [if_pos (Or.inl rfl)] at hstep
      obtain ⟨q,hq,hn⟩ := ih _ hstep (Gap.isBroken_push hgap ' ')
      exact ⟨q,by simpa [plainFrom,isSpace,isBlank] using hq,hn⟩
    by_cases htab : c = '\t'
    · -- The next token would begin with the tab.
      subst htab
      rw [if_neg (by simp),if_neg (by decide)] at hstep
      cases hstep
      rcases hp with hp | ⟨-,hp⟩
      · cases hp
      · exact absurd rfl hp
    have hspace : isSpace c ≠ true := by simp [isSpace,isBlank,hb,hsp,htab]
    refine ⟨⟨m,c :: r⟩,?_,h⟩
    by_cases hcol : m.column < indent
    · rw [plainFrom_of_left hspace ⟨Gap.ne_none hgap,Bool.false_ne_true,hcol⟩,hgap]
    rw [plainFrom,if_neg hspace]
    by_cases hhash : c = '#'
    · simp [Gap.ne_none hgap,hhash,hgap]
    · exfalso
      have hcond : ¬(c = ' ' ∨ c = '\t' ∧ (false = true ∨ (!true) = true) ∨ c = '\ufeff' ∧ m.column = 0) := by
        rintro (h | ⟨h,-⟩ | ⟨-,h⟩)
        · exact hsp h
        · exact htab h
        · omega
      rw [if_neg hcond,if_neg hhash] at hstep
      cases hstep
      rcases hp with hp | ⟨hp,-⟩
      · cases hp
      · exact hcol hp

namespace Scan

lemma token_of_isPlainWord {c : Char} (hc : isPlainWord c) (s : Scan) (r : List Char) :
    s.token c r = s.plainScalar := by
  have hmark : isDocumentMark (c :: r) = false := by
    unfold isDocumentMark
    split
    · next h =>
      cases h
      exact absurd hc (by decide)
    · next h =>
      cases h
      exact absurd hc (by decide)
    · rfl
  have hne (d : Char) (hd : isPlainWord d = false) : c ≠ d := ne_of_isPlainWord hc hd
  have hindicator : isIndicator c = false := by
    simp [isIndicator,isFlowIndicator,hne ',' (by decide),hne '[' (by decide),hne ']' (by decide),
      hne '{' (by decide),hne '}' (by decide),hne '-' (by decide),hne '?' (by decide),hne ':' (by decide),
      hne '#' (by decide),hne '&' (by decide),hne '*' (by decide),hne '!' (by decide),hne '|' (by decide),
      hne '>' (by decide),hne '\'' (by decide),hne '"' (by decide),hne '%' (by decide),hne '@' (by decide),
      hne '\x60' (by decide)]
  have hstarts : startsPlain s.inFlow (c :: r) = true := by
    simp [startsPlain,isSpace_of_isPlainWord hc,hindicator]
  simp [token,hmark,hstarts,hne '%' (by decide),hne '[' (by decide),hne '{' (by decide),hne ']' (by decide),
    hne '}' (by decide),hne ',' (by decide),hne '-' (by decide),hne '?' (by decide),hne ':' (by decide),
    hne '*' (by decide),hne '&' (by decide),hne '!' (by decide),hne '|' (by decide),hne '>' (by decide),
    hne '\'' (by decide),hne '"' (by decide)]

lemma nextFrom_of_isPlainWord {c : Char} (hc : isPlainWord c) (flow a : Bool) (m : Mark) (r : List Char) :
    nextFrom flow false a m (c :: r) = (a,⟨m,c :: r⟩) := by
  have hne (d : Char) (hd : isPlainWord d = false) : c ≠ d := ne_of_isPlainWord hc hd
  rw [nextFrom]
  simp [isBreak_of_isPrintable (isPrintable_of_isPlainWord hc),hne ' ' (by decide),hne '\t' (by decide),
    hne '\ufeff' (by decide),hne '#' (by decide)]

/-- No open block stands further right than the column. -/
def Within (is : List Nat) (column : Nat) : Prop := ∀ i ∈ is.head?, i ≤ column

lemma within_cons {i k : Nat} {is : List Nat} (h : i ≤ k) : Within (i :: is) k :=
  fun _ hj => Option.some.inj hj ▸ h

lemma Within.closeFrom_eq {is : List Nat} {k : Nat} (h : Within is k) {limit : Nat} (hlimit : k < limit) :
    closeFrom limit is = (is,[]) := by
  cases is with
  | nil => rfl
  | cons i is => rw [closeFrom,if_neg (Nat.not_le.mpr (Nat.lt_of_le_of_lt (h i rfl) hlimit))]

/-- Outside of brackets, where nothing is held back, a token is what its first character begins. -/
lemma step_between {c : Char} {r : List Char} {m : Mark} {is : List Nat} {a : Bool}
    (hnext : nextFrom false false a m (c :: r) = (a,⟨m,c :: r⟩)) (his : Within is m.column) :
    (between m (c :: r) is a).step = ((between m (c :: r) is a).token c r).bind release := by
  have hunroll : (between m (c :: r) is a).unroll (m.column+1) = between m (c :: r) is a := by
    simp [between,unroll,inFlow,his.closeFrom_eq (Nat.lt_succ_self _)]
  rw [step_eq,next_of_rest (toNext_between hnext) rfl hunroll rfl rfl]

end Scan

/-- The next token from here on, if there is one, stands at a column up to `i`. -/
def NextWithin (i : Nat) (m : Mark) (r : List Char) : Prop :=
  let p := (Scan.nextFrom false false false m r).2
  p.rest = [] ∨ p.mark.column ≤ i ∧ p.rest.head? ≠ some '\t'

/-- `v` is a spelling of the scalar `text`, wherever a value may stand in a block: read at a column that is not the
first one, it gives this scalar, provided that its line ends behind it and that the next token stands further
left than another line of the scalar could. -/
def Spells (v text : List Char) (plain : Bool) : Prop :=
  ∀ (m : Mark) (i : Nat) (is : List Nat) (r : List Char), i ≤ m.column → m.column ≠ 0 → AtLineEnd r →
    NextWithin i (m.right v.length) r →
    Scan.Emits 1 (.between m (v ++ r) (i :: is) false) [.scalar text plain]
      (.between (m.right v.length) r (i :: is) false)

lemma Scan.nextFrom_break (flow a : Bool) (m : Mark) (r : List Char) :
    nextFrom flow false a m ('\n' :: r) = nextFrom flow false (a || !flow) m.nextLine r := by
  rw [nextFrom]
  simp [isBreak]

lemma Scan.nextFrom_allowed (flow comment : Bool) (m : Mark) (r : List Char) :
    (nextFrom flow comment true m r).1 = true := by
  induction r generalizing comment m with
  | nil => rfl
  | cons c r ih =>
    rw [nextFrom]
    split_ifs
    · exact ih ..
    · exact ih ..
    · exact ih ..
    · exact ih ..
    · rfl

lemma spells_word {v : List Char} (hne : v ≠ []) (hv : ∀ c ∈ v, isPlainWord c) : Spells v v true := by
  intro m i is r hi hm hr hend
  obtain ⟨c,v',rfl⟩ := List.exists_cons_of_ne_nil hne
  have hc := hv c List.mem_cons_self
  obtain ⟨a,p,hp⟩ : ∃ a p, Scan.nextFrom false false false (m.right (c :: v').length) r = (a,p) := ⟨_,_,rfl⟩
  simp only [NextWithin,hp] at hend
  -- The scalar takes in the end of its line, and what space follows is skipped.
  obtain ⟨broken,q,hplain,hnext⟩ : ∃ b q,
      plainFrom [] false (i+1) .none (m.right (c :: v').length) r = some ([],b,q) ∧
        Scan.nextFrom false false b q.mark q.rest = (a,p) := by
    rcases hr with rfl | ⟨r,rfl⟩
    · refine ⟨false,⟨_,[]⟩,?_,hp⟩
      simp [plainFrom,Gap.none,Gap.isBroken,Mark.right]
    · rw [Scan.nextFrom_break] at hp
      have ha : a = true := by
        rw [Bool.not_false,Bool.or_true] at hp
        have hallowed := Scan.nextFrom_allowed false false (m.right (c :: v').length).nextLine r
        rw [hp] at hallowed
        exact hallowed
      subst ha
      obtain ⟨q,hq,hn⟩ := plainFrom_space (.breaks (some '\n') []) hp rfl (Nat.succ_pos i)
        (hend.imp_right fun h => ⟨Nat.lt_succ_of_le h.1,h.2⟩)
      refine ⟨true,q,?_,hn⟩
      rw [plainFrom]
      simpa [isSpace,isBreak,Gap.none,Gap.isBroken,Gap.push,Mark.after] using hq
  have hall : plain [] false (i+1) ⟨m,(c :: v') ++ r⟩ = some (c :: v',broken,q) := by
    rw [plain,plainFrom_word hv,hplain]
    simp [before]
  refine .single (t := .between q.mark q.rest (i :: is) broken) ?_ rfl
    ((Scan.toNext_between hnext).trans (Scan.toNext_between hp).symm)
  rw [List.cons_append,Scan.step_between (Scan.nextFrom_of_isPlainWord hc _ _ _ _) (Scan.within_cons hi),
    Scan.token_of_isPlainWord hc]
  rw [List.cons_append] at hall
  simp [Scan.plainScalar,Scan.savePlace,Scan.between,Scan.inFlow,hall,Scan.allow,Scan.push,Scan.release,
    Scan.expire,Held.giveUp,Held.isStale,Held.isRequired,Held.released]

/-- A text as it stands between single quotes. -/
def doubled (t : List Char) : List Char := t.flatMap fun c => if c = '\'' then ['\'','\''] else [c]

lemma singleFrom_doubled {t r : List Char} (ht : ∀ c ∈ t, isPrintable c) (hr : r.head? ≠ some '\'')
    {m : Mark} (hm : m.column ≠ 0) (b : List Char) :
    singleFrom [] (.blanks b) m (doubled t ++ '\'' :: r) =
      some (b ++ t,⟨m.right ((doubled t).length+1),r⟩) := by
  induction t generalizing m b with
  | nil =>
    have hmatch : ∀ r', '\'' :: r = '\'' :: '\'' :: r' → False := by
      intro r' h
      cases h
      exact hr rfl
    rw [doubled,List.flatMap_nil,List.nil_append,singleFrom.eq_3 _ _ _ _ _ (fun r' _ h => hmatch r' (by rw [h]))]
    simp [isSpace,isBlank,isBreak,hm,Gap.text]
  | cons c t ih =>
    have hc := ht c List.mem_cons_self
    have ih' := fun {m : Mark} (hm : m.column ≠ 0) b =>
      ih (fun d hd => ht d (List.mem_cons_of_mem c hd)) (m := m) hm b
    have hright : (m.right 1).column ≠ 0 := by simp
    by_cases hq : c = '\''
    · subst hq
      have hd : doubled ('\'' :: t) = '\'' :: '\'' :: doubled t := rfl
      rw [hd,List.cons_append,List.cons_append,singleFrom,Margin.lacks_nil,if_neg Bool.false_ne_true,Gap.none,
        ih' (by simp)]
      simp [before,Gap.text,Nat.add_comm 2]
    have hd : doubled (c :: t) = c :: doubled t := by simp [doubled,hq]
    rw [hd,List.cons_append,singleFrom.eq_3 _ _ _ _ _ (fun r' h _ => hq h),Mark.after_of_isPrintable hc]
    by_cases hsp : c = ' '
    · subst hsp
      rw [if_pos (by decide)]
      have hpush : (Gap.blanks b).push ' ' = .blanks (b ++ [' ']) := rfl
      rw [hpush,ih' hright]
      simp [Nat.add_comm]
    · have htab : c ≠ '\t' := by
        rintro rfl
        exact absurd hc (by decide)
      have hspace : isSpace c = false := by
        simp [isSpace,isBlank,isBreak_of_isPrintable hc,hsp,htab]
      simp only [hspace,Margin.lacks_nil,hm,hq,Bool.false_eq_true,if_false,false_and]
      rw [Gap.none,ih' hright]
      simp [before,Gap.text,Nat.add_comm]

lemma doubled_of_isPlainWord {t : List Char} (ht : ∀ c ∈ t, isPlainWord c) : doubled t = t := by
  induction t with
  | nil => rfl
  | cons c t ih =>
    have hc : c ≠ '\'' := ne_of_isPlainWord (ht c List.mem_cons_self) (by decide)
    have hd : doubled (c :: t) = c :: doubled t := by simp [doubled,hc]
    rw [hd,ih fun d hd => ht d (List.mem_cons_of_mem c hd)]

/-- A scalar in quotes of either kind, as far as its reader knows it. -/
lemma spells_of_reader {c : Char} {read : Margin → Cursor → Option (List Char × Cursor)} {v t : List Char}
    (hc : c = '\'' ∧ read = singleQuoted ∨ c = '"' ∧ read = doubleQuoted)
    (hread : ∀ (m : Mark) (r : List Char), AtLineEnd r →
      read [] ⟨m,c :: (v ++ c :: r)⟩ = some (t,⟨m.right (1+(v.length+1)),r⟩)) :
    Spells (c :: v ++ [c]) t false := by
  intro m i is r hi hm hr _
  have htext : c :: v ++ [c] ++ r = c :: (v ++ c :: r) := by simp
  have hlength : (c :: v ++ [c]).length = 1+(v.length+1) := by simp [Nat.add_comm]
  have hquoted := hread m r hr
  have hnext : Scan.nextFrom false false false m (c :: (v ++ c :: r)) = (false,⟨m,c :: (v ++ c :: r)⟩) := by
    rcases hc with ⟨rfl,-⟩ | ⟨rfl,-⟩ <;> simp [Scan.nextFrom,isBreak]
  have htoken : (Scan.between m (c :: (v ++ c :: r)) (i :: is) false).token c (v ++ c :: r) =
      (Scan.between m (c :: (v ++ c :: r)) (i :: is) false).quotedScalar read := by
    rcases hc with ⟨rfl,rfl⟩ | ⟨rfl,rfl⟩ <;> simp [Scan.token,isDocumentMark,Scan.column,Scan.between,hm]
  rw [htext,hlength]
  refine .single (t := .between (m.right (1+(v.length+1))) r (i :: is) false) ?_ rfl rfl
  rw [Scan.step_between hnext (Scan.within_cons hi),htoken]
  simp [Scan.between,Scan.quotedScalar,Scan.savePlace,hquoted,Scan.allow,Scan.push,Scan.release,Scan.expire,
    Held.giveUp,Held.isStale,Held.isRequired,Held.released]

lemma spells_quoted {t : List Char} (ht : ∀ c ∈ t, isPrintable c) :
    Spells ('\'' :: doubled t ++ ['\'']) t false := by
  refine spells_of_reader (.inl ⟨rfl,rfl⟩) fun m r hr => ?_
  have hhead : r.head? ≠ some '\'' := by
    rcases hr with rfl | ⟨r,rfl⟩ <;> simp
  rw [singleQuoted,Margin.lacks_nil,if_neg Bool.false_ne_true,Gap.none]
  simp only [List.tail_cons]
  rw [singleFrom_doubled ht hhead (by simp),Mark.right_right]
  rfl

lemma doubleFrom_word {t r : List Char} (ht : ∀ c ∈ t, isPlainWord c) {m : Mark} (hm : m.column ≠ 0) :
    doubleFrom [] .outside .none m (t ++ '"' :: r) = some (t,⟨m.right (t.length+1),r⟩) := by
  induction t generalizing m with
  | nil => simp [doubleFrom,isSpace,isBlank,isBreak,hm,Gap.text,Gap.none]
  | cons c t ih =>
    have hc := ht c List.mem_cons_self
    have hquote : c ≠ '"' := ne_of_isPlainWord hc (by decide)
    have hescape : c ≠ '\\' := ne_of_isPlainWord hc (by decide)
    have hright : (m.right 1).column ≠ 0 := by simp
    rw [List.cons_append,doubleFrom,Mark.after_of_isPrintable (isPrintable_of_isPlainWord hc)]
    simp only [isSpace_of_isPlainWord hc,Margin.lacks_nil,hm,hquote,hescape,Bool.and_false,Bool.false_eq_true,if_false,
      false_and]
    rw [ih (fun d hd => ht d (List.mem_cons_of_mem c hd)) hright]
    simp [before,Gap.text,Gap.none,Nat.add_comm]

lemma spells_doubleQuoted {t : List Char} (ht : ∀ c ∈ t, isPlainWord c) : Spells ('"' :: t ++ ['"']) t false := by
  refine spells_of_reader (.inr ⟨rfl,rfl⟩) fun m r _ => ?_
  rw [doubleQuoted,Margin.lacks_nil,if_neg Bool.false_ne_true]
  simp only [List.tail_cons]
  rw [doubleFrom_word ht (by simp),Mark.right_right]

end Keyring.Yaml
