import Keyring.Proofs.Yaml.Seam.Step

/-! Scans that come to the end of a text, and go on in what is put behind it. -/
namespace Keyring.Yaml

/-- A character that a plain scalar takes in, where no block is open. -/
lemma plainFrom_char {c : Char} {r : List Char} {m : Mark} (hspace : isSpace c = false)
    (hhash : c ≠ '#') (hcolon : c ≠ ':')
    (hmark : isDocumentMark (c :: r) = false) (gap : Gap) :
    plainFrom [] false 0 gap m (c :: r) = before (gap.text ++ [c]) (plainFrom [] false 0 .none (m.after c) r) := by
  have hstray : isStrayColon false (c :: r) = false := by
    unfold isStrayColon
    split <;> rfl
  rw [plainFrom,if_neg (by simp [hspace])]
  simp [hstray,endsPlain,hcolon,hhash,hmark]

lemma isDocumentMark_of_isPlainWord {c : Char} (h : isPlainWord c) (r : List Char) :
    isDocumentMark (c :: r) = false := by
  have hhyphen := ne_of_isPlainWord (d := '-') h (by decide)
  have hdot := ne_of_isPlainWord (d := '.') h (by decide)
  simp [isDocumentMark,hhyphen,hdot]

/-- A hyphen and the name behind it, taken into a plain scalar. The scalar ends before the colon. -/
lemma plainFrom_hyphen (f : Field) (gap : Gap) (m : Mark) (z : List Char) :
    ∃ t m₂, plainFrom [] false 0 gap m ('-' :: ' ' :: (f.line ++ z)) =
      some (t,false,⟨m₂,':' :: ' ' :: (f.spelling ++ z)⟩) ∧ m₂.line = m.line := by
  obtain ⟨c,v,hname⟩ := List.exists_cons_of_ne_nil f.name_ne
  have hword := f.isPlainWord_of_mem
  rw [hname] at hword
  have hc := hword c List.mem_cons_self
  have hline : f.line ++ z = c :: (v ++ ':' :: ' ' :: (f.spelling ++ z)) := by simp [Field.line,hname]
  generalize f.spelling ++ z = z' at *
  have hend (m₂ : Mark) : plainFrom [] false 0 .none m₂ (':' :: ' ' :: z') = some ([],false,⟨m₂,':' :: ' ' :: z'⟩) := by
    simp [plainFrom,isSpace,isBlank,isBreak,isStrayColon,endsPlain,atSpace,Gap.none,Gap.isBroken]
  have hblank (m₂ : Mark) (r : List Char) : plainFrom [] false 0 .none m₂ (' ' :: r) =
      plainFrom [] false 0 (.blanks [' ']) (m₂.after ' ') r := by
    rw [plainFrom,if_pos (by decide),if_neg (by simp [Gap.none,Gap.isBroken])]
    rfl
  have hread := plainFrom_char (m := m) (c := '-') (r := ' ' :: c :: (v ++ ':' :: ' ' :: z')) (by decide) (by decide)
    (by decide) rfl gap
  rw [hblank,plainFrom_char (isSpace_of_isPlainWord hc) (ne_of_isPlainWord hc (by decide))
    (ne_of_isPlainWord hc (by decide)) (isDocumentMark_of_isPlainWord hc _),
    plainFrom_word (fun d hd => hword d (List.mem_cons_of_mem c hd)),hend] at hread
  rw [hline]
  refine ⟨_,_,hread,?_⟩
  rw [Mark.after_of_isPrintable (isPrintable_of_isPlainWord hc),Mark.after_of_isPrintable (by decide),
    Mark.after_of_isPrintable (by decide)]
  rfl

namespace Held

/-- Where all places are given up, only tokens are left. -/
lemma eq_tokens_of_giveUp {p : Held → Bool} (hp : ∀ t, p (token t) = false) {h h' : List Held}
    (hplaces : ∀ l m required, place l m required ∈ h → p (place l m required) = true) (hh : giveUp p h = some h') :
    h' = (tokens h).map token := by
  rw [eq_filter_of_giveUp hh]
  clear hh
  induction h with
  | nil => rfl
  | cons a h ih =>
    have ih' := ih fun l m required hm => hplaces l m required (List.mem_cons_of_mem a hm)
    cases a with
    | token t => simp [tokens,hp,ih']
    | place l m required => simp [tokens,hplaces l m required List.mem_cons_self,ih']

end Held

namespace Scan

variable {b : Nat} {g : Margin} {s s' : Scan} {ts : List Token}

/-- Where all places are too far back, all tokens are released. -/
lemma release_of_stale (hplaces : ∀ l m required, Held.place l m required ∈ s.held →
    (Held.place l m required).isStale s.cursor.mark = true) (hs : s.release = some (ts,s')) :
    ts = Held.tokens s.held ∧ s' = { s with held := [] } := by
  obtain ⟨s₁,h₁,hs⟩ := Option.bind_eq_some_iff.mp hs
  obtain ⟨held,hheld,h₁⟩ := Option.bind_eq_some_iff.mp h₁
  have htokens := Held.eq_tokens_of_giveUp (fun _ => rfl) hplaces hheld
  cases h₁
  dsimp only at hs
  rw [htokens,released_tokens] at hs
  cases hs
  exact ⟨rfl,rfl⟩

/-- Where a scalar ends on a later line than it begins, all that was held back is released with it. -/
lemma release_scalarRead {held : List Held} {t : List Char} {plain broken : Bool} {q : Cursor} (h : s.Sound b g)
    (hsave : s.savePlace = some { s with held := held })
    (hs : (s.scalarRead held t plain broken q).release = some (ts,s')) (hline : s.cursor.mark.line < q.mark.line) :
    ts = Held.tokens held ++ [.scalar t plain] ∧ s' = { s.scalarRead held t plain broken q with held := [] } := by
  have hstale := release_of_stale (fun l m required hm => ?_) hs
  · refine ⟨hstale.1.trans ?_,hstale.2⟩
    simp [scalarRead,Held.tokens]
  · have hm' : Held.place l m required ∈ held := by simpa [scalarRead] using hm
    have hle := (((h.savePlace hsave).places l m required hm').1 : m.line ≤ s.cursor.mark.line)
    have hlt : m.line < q.mark.line := Nat.lt_of_le_of_lt hle hline
    simp [Held.isStale,scalarRead,hlt]

/-- A colon stands for itself only where a key may begin. -/
lemma step_colon_none (m : Mark) (r : List Char) : (between m (':' :: ' ' :: r) [] false).step = none := by
  have hnext : (between m (':' :: ' ' :: r) [] false).toNext = between m (':' :: ' ' :: r) [] false :=
    toNext_between (by simp [nextFrom,isBreak])
  have htoken : (between m (':' :: ' ' :: r) [] false).token ':' (' ' :: r) =
      (between m (':' :: ' ' :: r) [] false).value := by
    simp [token,isDocumentMark,atSpace,isSpace,isBlank]
  have hvalue : (between m (':' :: ' ' :: r) [] false).value = none := by
    rw [value_of_none rfl]
    rfl
  have hunroll : (between m (':' :: ' ' :: r) [] false).unroll (m.column+1) =
    between m (':' :: ' ' :: r) [] false := rfl
  rw [step_eq,next_of_rest hnext rfl hunroll rfl rfl,htoken,hvalue]
  rfl

/-- A plain scalar that reached the end of the text goes on to the colon of the first field behind it, which stands on
a later line. -/
lemma plainScalar_append_field {f : Field} {z : List Char} (hm : s.margin = []) (hflow : s.inFlow = false)
    (hindents : s.indents = []) (hlast : s.cursor.rest.getLast? = some '\n') (hs : s.plainScalar = some s')
    (hnil : s'.cursor.rest = []) : ∃ held t m, s.savePlace = some { s with held := held } ∧
      (s.append ('-' :: ' ' :: (f.line ++ z))).plainScalar = some ((s.append ('-' :: ' ' :: (f.line ++ z))).scalarRead
        held t true false ⟨m,':' :: ' ' :: (f.spelling ++ z)⟩) ∧
      s.cursor.mark.line < m.line := by
  generalize hy : '-' :: ' ' :: (f.line ++ z) = y
  obtain ⟨held,t,broken,q,hsave,hread,rfl⟩ := (plainScalar_eq_some_iff hm).mp hs
  rw [hflow,hindents,plainIndent] at hread
  obtain ⟨-,hq⟩ := plainFrom_append (y := y) (fun _ => Or.inr hlast) hread
  obtain ⟨-,gap',-,-,heq⟩ := hq.resolve_left fun hq => hq.1 hnil
  obtain ⟨t',m,hhyphen,hline⟩ := plainFrom_hyphen f gap' q.mark z
  have heq' : plainFrom [] false 0 .none s.cursor.mark (s.cursor.rest ++ y) =
      some (t ++ t',false,⟨m,':' :: ' ' :: (f.spelling ++ z)⟩) := by
    refine heq.trans ?_
    rw [← hy,hhyphen]
    rfl
  have hsave' : (s.append y).savePlace = some { s.append y with held := held } := by
    rw [savePlace_append,hsave]
    rfl
  refine ⟨held,t ++ t',m,hsave,?_,?_⟩
  · refine (plainScalar_eq_some_iff (s := s.append y) hm).mpr ⟨held,_,_,_,hsave',?_,rfl⟩
    change plainFrom [] s.inFlow (plainIndent s.indents) .none s.cursor.mark (s.cursor.rest ++ y) = _
    rw [hflow,hindents,plainIndent]
    exact heq'
  · obtain ⟨v,hv,hmark⟩ := plainFrom_mark hread
    have hnil' : q.rest = [] := hnil
    rw [hnil',List.append_nil] at hv
    rw [hline,hmark]
    obtain ⟨v,rfl⟩ := List.getLast?_eq_some_iff.mp (hv ▸ hlast)
    rw [List.foldl_append]
    exact Nat.lt_succ_of_le (Mark.line_le_foldl v s.cursor.mark)

/-- A scan that goes on within a plain scalar does not come to the end of the stream, as the colon of the first field
begins no value. -/
lemma Crosses.streamEnd_notMem {f : Field} {z : List Char} (h : Crosses b s ('-' :: ' ' :: (f.line ++ z)) ts s')
    (hlevel : s'.level = 0) (n : Nat) :
    Token.streamEnd ∉ ((s.append ('-' :: ' ' :: (f.line ++ z))).run n).1 := by
  obtain ⟨s₁,s₂,h₁,hlast,hplain,hnil,hinside,hrelease,hstep⟩ := h
  have hlevel₁ : s₁.level = 0 := by
    obtain ⟨held,t,broken,q,-,-,rfl⟩ := (plainScalar_eq_some_iff h₁.margin).mp hplain
    obtain ⟨s₃,h₃,hrelease⟩ := Option.bind_eq_some_iff.mp hrelease
    obtain ⟨held,-,h₃⟩ := Option.bind_eq_some_iff.mp h₃
    cases h₃
    cases hrelease
    exact hlevel
  have hflow : s₁.inFlow = false := by simp [inFlow,hlevel₁]
  have hindents : s₁.indents = [] := hinside.resolve_left (by simp [hflow])
  obtain ⟨held,t,m₂,hsave,hplain',hlines⟩ :=
    plainScalar_append_field (f := f) (z := z) h₁.margin hflow hindents hlast hplain hnil
  generalize '-' :: ' ' :: (f.line ++ z) = y at *
  have hsave' : (s₁.append y).savePlace = some { s₁.append y with held := held } := by
    rw [savePlace_append,hsave]
    rfl
  have hsound := (h₁.append y).plainScalar hplain'
  cases n with
  | zero => simp [run]
  | succ n =>
    rw [run,hstep,hplain',Option.bind_some]
    cases hrelease' : ((s₁.append y).scalarRead held t true false ⟨m₂,':' :: ' ' :: (f.spelling ++ z)⟩).release with
    | none => simp
    | some p =>
      obtain ⟨ts',s₃⟩ := p
      have hbetween : { (s₁.append y).scalarRead held t true false ⟨m₂,':' :: ' ' :: (f.spelling ++ z)⟩ with
          held := [] } = between m₂ (':' :: ' ' :: (f.spelling ++ z)) [] false := by
        simp [scalarRead,append,between,h₁.margin,hindents,hlevel₁,h₁.ended]
      have hrun : (between m₂ (':' :: ' ' :: (f.spelling ++ z)) [] false).run n = ([],false) := by
        cases n with
        | zero => rfl
        | succ n => rw [run,step_colon_none]
      have hend := (hsound.release hrelease').1
      obtain rfl := (release_scalarRead (h₁.append y) hsave' hrelease' hlines).2.trans hbetween
      dsimp only
      rw [hrun]
      simpa [between] using hend

lemma same_of_release (h : s.release = some (ts,s')) :
    s'.cursor = s.cursor ∧ s'.indents = s.indents ∧ s'.level = s.level := by
  obtain ⟨s₁,h₁,h⟩ := Option.bind_eq_some_iff.mp h
  obtain ⟨held,-,h₁⟩ := Option.bind_eq_some_iff.mp h₁
  cases h₁
  cases h
  exact ⟨rfl,rfl,rfl⟩

lemma Crosses.rest_eq_nil {y : List Char} (h : Crosses b s y ts s') : s'.cursor.rest = [] := by
  obtain ⟨s₁,s₂,-,-,-,hnil,-,hrelease,-⟩ := h
  rw [(same_of_release hrelease).1,hnil]

lemma Crosses.indents {y : List Char} (h : Crosses b s y ts s') (hlevel : s'.level = 0) :
    s'.indents = [] ∧ ∃ t, Token.scalar t true ∈ ts ++ Held.tokens s'.held := by
  obtain ⟨s₁,s₂,h₁,-,hplain,-,hinside,hrelease,-⟩ := h
  obtain ⟨-,hindents,hlevel'⟩ := same_of_release hrelease
  have htokens := tokens_of_release hrelease
  obtain ⟨held,t,broken,q,-,-,rfl⟩ := (plainScalar_eq_some_iff h₁.margin).mp hplain
  have hflow : s₁.inFlow = false := by
    have hlevel₁ : s₁.level = 0 := hlevel'.symm.trans hlevel
    simp [inFlow,hlevel₁]
  refine ⟨hindents.trans (hinside.resolve_left (by simp [hflow])),t,?_⟩
  rw [htokens]
  simp [scalarRead,Held.tokens]

/-- From the first scan to the second one, as many tokens are read as the number tells, and the tokens of the list are
released. -/
inductive Steps : Nat → Scan → List Token → Scan → Prop
  | refl (s : Scan) : Steps 0 s [] s
  | step {n : Nat} {s t u : Scan} {ts us : List Token} : s.step = some (ts,t) → t.ended = false →
      Steps n t us u → Steps (n+1) s (ts ++ us) u

variable {n : Nat} {e e' : Scan} {us : List Token}

lemma Steps.emits (h : Steps n s ts e) : Emits n s ts e := by
  induction h with
  | refl s => exact .space rfl
  | step hs he _ ih => exact .step hs he ih

lemma Steps.sound (h : Steps n s ts e) (hs : s.Sound b g) : Token.streamEnd ∉ ts ∧ e.Sound (nesting b ts) g := by
  induction h generalizing b with
  | refl s => exact ⟨List.not_mem_nil,hs⟩
  | step hstep he _ ih =>
    obtain ⟨hts,ht⟩ := hs.step hstep he
    obtain ⟨hus,hu⟩ := ih ht
    exact ⟨fun h => (List.mem_append.mp h).elim hts hus,by rwa [nesting_append]⟩

lemma toNext_of_nil (h : s.cursor.rest = []) : s.toNext.cursor.rest = [] := by
  change (nextFrom s.inFlow false s.keyAllowed s.cursor.mark s.cursor.rest).2.rest = []
  rw [h]
  rfl

/-- Where nothing is left of the text, no token is read. -/
lemma Steps.eq_of_nil (h : Steps n s ts e) (hs : s.Sound b) (hnil : s.cursor.rest = []) : e = s ∧ ts = [] ∧ n = 0 := by
  cases h with
  | refl => exact ⟨rfl,rfl,rfl⟩
  | step hstep he _ =>
    exfalso
    obtain ⟨s₁,c,r,-,hahead,-,hrest,-⟩ := token_of_step hs hstep he
    rw [cursor_of_ahead hahead,toNext_of_nil hnil] at hrest
    cases hrest

/-- A run to the end of the stream is made of steps, and of a last one. -/
lemma exists_steps (h : s.Sound b g) (hmem : Token.streamEnd ∈ (s.run n).1) : ∃ k ts e us e', k < n ∧ Steps k s ts e ∧
    e.step = some (us,e') ∧ e'.ended = true ∧ (s.run n).1 = ts ++ us ∧ s.atEnd? n = some e := by
  induction n generalizing s b with
  | zero => cases hmem
  | succ n ih =>
    rw [run] at hmem ⊢
    rw [atEnd?]
    cases hstep : s.step with
    | none =>
      rw [hstep] at hmem
      cases hmem
    | some p =>
      obtain ⟨ts,s'⟩ := p
      rw [hstep] at hmem
      dsimp only at hmem ⊢
      cases he : s'.ended with
      | true => exact ⟨0,[],s,ts,s',Nat.succ_pos n,.refl s,hstep,he,rfl,rfl⟩
      | false =>
        obtain ⟨hts,hs'⟩ := h.step hstep he
        rw [he,if_neg Bool.false_ne_true] at hmem
        have hmem' := (List.mem_append.mp hmem).resolve_left hts
        obtain ⟨k,us,e,vs,e',hk,hsteps,hlast,hended,hrun,hat⟩ := ih hs' hmem'
        refine ⟨k+1,ts ++ us,e,vs,e',Nat.succ_lt_succ hk,.step hstep he hsteps,hlast,hended,?_,hat⟩
        simp [hrun]

/-- Where a run comes to the end of the stream, no margin hides it. -/
lemma lacks_of_atEnd? (h : s.Sound b g) (hat : s.atEnd? n = some e) : g.lacks 4 [] = false := by
  induction n generalizing s b with
  | zero => cases hat
  | succ n ih =>
    rw [atEnd?] at hat
    cases hstep : s.step with
    | none =>
      rw [hstep] at hat
      cases hat
    | some p =>
      obtain ⟨ts,s'⟩ := p
      rw [hstep] at hat
      dsimp only at hat
      cases he : s'.ended with
      | false =>
        rw [he,if_neg Bool.false_ne_true] at hat
        exact ih (h.step hstep he).2 hat
      | true =>
        obtain ⟨s₁,hahead,⟨-,hlacks,-⟩ | ⟨c,r,s₂,-,-,h₂,hrelease⟩⟩ := step_of_ahead hstep
        · exact h.margin ▸ hlacks
        · rw [(((h.ahead hahead).token h₂).release hrelease).2.ended] at he
          cases he

/-- What a scan says of the place it came to: where nothing is left of the text, a key may begin, unless a directive was
read last. The tokens `done` were released before. -/
def Ready (done : List Token) (s : Scan) : Prop :=
  s.cursor.rest = [] → s.keyAllowed = true ∨
    ∃ t, (done ++ Held.tokens s.held).getLast? = some t ∧ t.isDirective = true

/-- A scan over a text whose last line is ended goes on behind it before a list of records, unless it goes on within a
plain scalar. -/
lemma Steps.append_hyphen (h : Steps n s ts e) (hs : s.Sound b) (hl : EndsLine s.cursor.mark s.cursor.rest)
    {done : List Token} (hready : Ready done s) (hlevel : e.level = 0) (f : Field) (z : List Char) :
    EndsLine e.cursor.mark e.cursor.rest ∧ Ready (done ++ ts) e ∧
      (Steps n (s.append ('-' :: ' ' :: (f.line ++ z))) ts (e.append ('-' :: ' ' :: (f.line ++ z))) ∨
        e.indents = [] ∧ (∃ t, Token.scalar t true ∈ ts ++ Held.tokens e.held) ∧
          ∀ n, Token.streamEnd ∉ ((s.append ('-' :: ' ' :: (f.line ++ z))).run n).1) := by
  induction h generalizing b done with
  | refl s =>
    refine ⟨hl,?_,Or.inl (.refl _)⟩
    rwa [List.append_nil]
  | @step n s s' u ts us hstep he hrest ih =>
    obtain ⟨hts,hs'⟩ := hs.step hstep he
    obtain ⟨hline,hready',happend⟩ := step_append_hyphen hs hl hstep he (' ' :: (f.line ++ z))
    have hready'' : Ready (done ++ ts) s' := by
      refine fun hnil => (hready' hnil).imp_right ?_
      rintro ⟨t,ht,hdirective⟩
      refine ⟨t,?_,hdirective⟩
      rw [List.append_assoc,List.getLast?_append,ht]
      rfl
    obtain ⟨hlineEnd,hreadyEnd,hrest'⟩ := ih hs' hline hready'' hlevel
    rw [List.append_assoc] at hreadyEnd
    refine ⟨hlineEnd,hreadyEnd,?_⟩
    rcases happend with happend | hcrosses
    · rcases hrest' with hrest' | ⟨hindents,⟨t,ht⟩,hend⟩
      · exact Or.inl (.step happend he hrest')
      · refine Or.inr ⟨hindents,⟨t,?_⟩,fun k => ?_⟩
        · rw [List.append_assoc]
          exact List.mem_append_right ts ht
        · cases k with
          | zero => simp [run]
          | succ k =>
            have he' : (s'.append ('-' :: ' ' :: (f.line ++ z))).ended = false := he
            rw [run,happend]
            simp only [he',Bool.false_eq_true,if_false]
            exact fun h => (List.mem_append.mp h).elim hts (hend k)
    · -- Nothing is left of the text, so this is the last step.
      obtain ⟨rfl,rfl,-⟩ := hrest.eq_of_nil hs' hcrosses.rest_eq_nil
      obtain ⟨hindents,ht⟩ := hcrosses.indents hlevel
      rw [List.append_nil]
      exact Or.inr ⟨hindents,ht,fun k => hcrosses.streamEnd_notMem hlevel k⟩

end Scan

namespace Held

lemma tokens_replicate (k : Nat) (t : Token) : tokens (List.replicate k (token t)) = List.replicate k t := by
  induction k with
  | zero => rfl
  | succ k ih => rw [List.replicate_succ,List.replicate_succ,tokens,ih]

/-- Whether no key is required at any place. -/
def IsFree (h : List Held) : Prop := ∀ a ∈ h, a.isRequired = false

lemma not_isRequired_of_giveUp {p : Held → Bool} {h h' : List Held} (hh : giveUp p h = some h') {a : Held} (ha : a ∈ h)
    (hp : p a = true) : a.isRequired = false := by
  unfold giveUp at hh
  split at hh
  · cases hh
  · next hany =>
    by_contra hrequired
    exact hany (List.any_eq_true.mpr ⟨a,ha,by simpa [hp] using hrequired⟩)

lemma giveUp_of_isFree {h : List Held} (hfree : IsFree h) (p : Held → Bool) :
    giveUp p h = some (h.filter fun a => !p a) := by
  have hany : h.any (fun a => p a && a.isRequired) = false := by
    refine List.any_eq_false.mpr fun a ha => ?_
    simp [hfree a ha]
  simp [giveUp,hany]

end Held

namespace Scan

/-- What is held back where the scan stands outside of brackets: tokens, and places that may be given up. -/
structure Loose (s : Scan) : Prop where
  level : s.level = 0
  isFree : Held.IsFree s.held
  places : ∀ l p required, Held.place l p required ∈ s.held → l = 0

namespace Loose

variable {b : Nat} {g : Margin} {s s' : Scan}

lemma of_sound (h : s.Sound b g) (hlevel : s.level = 0) (hfree : Held.IsFree s.held) : s.Loose where
  level := hlevel
  isFree := hfree
  places := fun l p required hm => Nat.eq_zero_of_le_zero (hlevel ▸ (h.places l p required hm).2)

lemma held (h : s.Loose) (held : List Held) (hheld : ∀ a ∈ held, a ∈ s.held ∨ ∃ t, a = .token t) :
    Loose { s with held := held } where
  level := h.level
  isFree := fun a ha => by
    rcases hheld a ha with ha | ⟨t,rfl⟩
    · exact h.isFree a ha
    · rfl
  places := fun l p required hm => by
    rcases hheld _ hm with hm | ⟨t,hm⟩
    · exact h.places l p required hm
    · cases hm

lemma toward (h : s.Loose) (p : Cursor) (a : Bool) : Loose { s with cursor := p, keyAllowed := a } :=
  { h with }

lemma dropPlace (h : s.Loose) : s.dropPlace = some { s with held := (Held.tokens s.held).map .token } := by
  have hheld := Held.giveUp_of_isFree h.isFree (·.isAt s.level)
  have htokens := Held.eq_tokens_of_giveUp (fun _ => rfl)
    (fun l p required hm => by simp [Held.isAt,h.places l p required hm,h.level]) hheld
  rw [Scan.dropPlace,hheld,htokens]
  rfl

lemma unroll_eq (h : s.Loose) (limit : Nat) : s.unroll limit =
    { s with indents := s.indents.dropWhile (limit ≤ ·),
             held := s.held ++ List.replicate (s.indents.takeWhile (limit ≤ ·)).length (.token .blockEnd) } := by
  have hflow : s.inFlow = false := by simp [inFlow,h.level]
  rw [Scan.unroll,if_neg (by simp [hflow]),closeFrom_eq]

lemma unroll (h : s.Loose) (limit : Nat) : (s.unroll limit).Loose := by
  rw [h.unroll_eq]
  refine { h.held _ fun a ha => ?_ with level := h.level }
  rcases List.mem_append.mp ha with ha | ha
  · exact Or.inl ha
  · exact Or.inr ⟨_,List.eq_of_mem_replicate ha⟩

/-- Before the next token, the same tokens are held back, and the ends of the blocks that end there. -/
lemma ahead (h : s.Loose) : ∃ s₁, s.ahead = some s₁ ∧ s₁.Loose ∧
    s₁.indents = s.indents.dropWhile (s.toNext.column+1 ≤ ·) ∧ Held.tokens s₁.held =
      Held.tokens s.held ++ List.replicate (s.indents.takeWhile (s.toNext.column+1 ≤ ·)).length .blockEnd := by
  have hnext : s.toNext.Loose := h.toward s.toNext.cursor s.toNext.keyAllowed
  have hexpire : s.toNext.expire =
      some { s.toNext with held := s.held.filter fun a => !a.isStale s.toNext.cursor.mark } := by
    rw [expire,Held.giveUp_of_isFree hnext.isFree]
    rfl
  have hexpired := hnext.held (s.held.filter fun a => !a.isStale s.toNext.cursor.mark)
    fun a ha => Or.inl (List.mem_filter.mp ha).1
  have htokens : Held.tokens (s.held.filter fun a => !a.isStale s.toNext.cursor.mark) = Held.tokens s.held :=
    Held.tokens_of_giveUp (fun _ => rfl) (Held.giveUp_of_isFree h.isFree _)
  refine ⟨_,?_,hexpired.unroll (s.toNext.column+1),?_,?_⟩
  · rw [Scan.ahead,hexpire]
    rfl
  · rw [hexpired.unroll_eq]
    rfl
  · rw [hexpired.unroll_eq,Held.tokens_append,htokens,Held.tokens_replicate]
    rfl

end Loose

variable {b k : Nat} {g : Margin} {s s' : Scan} {us : List Token}

/-- At the end of the stream, all tokens are released and all open blocks are closed. -/
lemma step_end (h : s.Sound b) (hloose : s.Loose) (hnil : s.toNext.cursor.rest = []) : ∃ s',
    s.step = some (Held.tokens s.held ++ List.replicate s.indents.length .blockEnd ++ [.streamEnd],s') ∧
      s'.ended = true := by
  obtain ⟨s₁,hahead,hloose₁,hindents,htokens⟩ := hloose.ahead
  have hcursor := cursor_of_ahead hahead
  have hstep := step_of_streamEnd h.margin hahead (by rw [hcursor,hnil])
  have hcount : (s.indents.takeWhile (s.toNext.column+1 ≤ ·)).length + s₁.indents.length = s.indents.length := by
    rw [hindents,← List.length_append,List.takeWhile_append_dropWhile]
  -- The cursor goes to the begin of a line.
  generalize hp : (⟨if s₁.cursor.mark.column = 0 then s₁.cursor.mark else s₁.cursor.mark.nextLine,[]⟩ : Cursor) = p
  have hend : s₁.streamEnd = (({ s₁ with cursor := p }.unroll 0).dropPlace).bind fun s =>
      some { (s.allow false).push .streamEnd with ended := true } := by
    rw [← hp]
    rfl
  have hloose₂ := (hloose₁.toward p s₁.keyAllowed).unroll 0
  rw [hend,hloose₂.dropPlace,Option.bind_some] at hstep
  have htokens₂ : Held.tokens (unroll { s₁ with cursor := p } 0).held =
      Held.tokens s.held ++ List.replicate s.indents.length .blockEnd := by
    have hall (is : List Nat) : is.takeWhile (0 ≤ ·) = is := by simp
    rw [(hloose₁.toward p s₁.keyAllowed).unroll_eq,hall,Held.tokens_append,htokens,Held.tokens_replicate,
      List.append_assoc,List.replicate_append_replicate,hcount]
  rw [htokens₂,Option.bind_some,@release_of_tokens _
    (Held.tokens s.held ++ List.replicate s.indents.length .blockEnd ++ [.streamEnd]) ?_] at hstep
  · exact ⟨_,hstep,rfl⟩
  · simp [push,allow]

/-- Where the list of an entry is opened or goes on, after the blocks inside of it are closed. -/
lemma Loose.rollAllowed {opening : List Token} {js : List Nat} (h : s.Loose) (hallowed : s.keyAllowed = true)
    (hcolumn : s.column = 0) (hindents : s.indents = [] ∧ opening = [.blockSequenceStart] ∧ js = [] ∨
      s.indents = 0 :: js ∧ opening = []) :
    s.rollAllowed .blockSequenceStart = some { s with indents := 0 :: js, held := s.held ++ opening.map .token } ∧
      Loose { s with indents := 0 :: js, held := s.held ++ opening.map .token } := by
  have hflow : s.inFlow = false := by simp [inFlow,h.level]
  have hloose : Loose { s with held := s.held ++ opening.map .token } := h.held _ fun a ha => by
    rcases List.mem_append.mp ha with ha | ha
    · exact Or.inl ha
    · obtain ⟨t,-,rfl⟩ := List.mem_map.mp ha
      exact Or.inr ⟨t,rfl⟩
  refine ⟨?_,⟨hloose.level,hloose.isFree,hloose.places⟩⟩
  rw [Scan.rollAllowed,if_neg (by simp [hflow]),if_pos hallowed]
  rcases hindents with ⟨hindents,rfl,rfl⟩ | ⟨hindents,rfl⟩
  · simp [roll,opensBlock,hflow,hindents,hcolumn,push]
  · have hopens : s.opensBlock s.column = false := by simp [opensBlock,hindents,hcolumn]
    rw [roll,if_neg (by simp [hopens]),← hindents]
    simp

/-- At the end of a text, the hyphen of an entry behind it goes on with the list in the first column, or begins one. -/
lemma step_entry (h : s.Sound b) (hloose : s.Loose) (hl : EndsLine s.cursor.mark s.cursor.rest)
    (hnil : s.toNext.cursor.rest = []) (hallowed : s.toNext.keyAllowed = true) {opening : List Token} {js : List Nat}
    (hk : Closes s.indents k opening js) (z : List Char) : (s.append ('-' :: ' ' :: z)).step =
      some (Held.tokens s.held ++ (List.replicate k .blockEnd ++ (opening ++ [.blockEntry])),
        between (s.toNext.cursor.mark.right 1) (' ' :: z) (0 :: js) true) := by
  obtain ⟨hnext,hline,-⟩ := toNext_append_hyphen hl (' ' :: z)
  have hcolumn : s.toNext.cursor.mark.column = 0 := (hline.resolve_left fun hlast => by simp [hnil] at hlast).2
  obtain ⟨s₁,hahead,hloose₁,hindents,htokens⟩ := Loose.ahead (s := s.append ('-' :: ' ' :: z)) { hloose with }
  have hsound := (h.append ('-' :: ' ' :: z)).ahead hahead
  have hcursor : s₁.cursor = ⟨s.toNext.cursor.mark,'-' :: ' ' :: z⟩ := by
    rw [cursor_of_ahead hahead,hnext,append,Cursor.append,hnil]
    rfl
  have hallowed₁ : s₁.keyAllowed = true := by
    rw [keyAllowed_of_ahead hahead,hnext]
    exact hallowed
  have hcolumn₁ : s₁.column = 0 := by
    rw [column,hcursor]
    exact hcolumn
  have hcolumn' : (s.append ('-' :: ' ' :: z)).toNext.column = 0 := by
    rw [hnext]
    exact hcolumn
  rw [hcolumn'] at hindents htokens
  have hcount : (s.indents.takeWhile (0+1 ≤ ·)).length = k ∧
    (s₁.indents = [] ∧ opening = [.blockSequenceStart] ∧ js = [] ∨
      s₁.indents = 0 :: js ∧ opening = []) := by
    rw [Closes,closeFrom_eq] at hk
    rw [hindents]
    rcases hk with ⟨hclose,hk⟩ | ⟨hclose,hk⟩
    · obtain ⟨hbase,hends⟩ := Prod.mk.inj hclose
      exact ⟨by simpa using congrArg List.length hends,Or.inl ⟨hbase,hk⟩⟩
    · obtain ⟨hbase,hends⟩ := Prod.mk.inj hclose
      exact ⟨by simpa using congrArg List.length hends,Or.inr ⟨hbase,hk⟩⟩
  obtain ⟨hroll,hloose₂⟩ := hloose₁.rollAllowed hallowed₁ hcolumn₁ hcount.2
  have htoken : s₁.token '-' (' ' :: z) = s₁.blockEntry := by
    have hmark : isDocumentMark ('-' :: ' ' :: z) = false := rfl
    simp [token,hmark,atSpace,isSpace,isBlank]
  rw [step_of_token (s := s.append ('-' :: ' ' :: z)) h.margin hahead (by rw [hcursor]),htoken,blockEntry,hroll]
  have hheld : Held.tokens (s₁.held ++ opening.map Held.token) ++ [.blockEntry] =
      Held.tokens s.held ++ (List.replicate k .blockEnd ++ (opening ++ [.blockEntry])) := by
    rw [Held.tokens_append,Held.tokens_map,htokens]
    change Held.tokens s.held ++ List.replicate (s.indents.takeWhile (0+1 ≤ ·)).length _ ++ _ ++ _ = _
    rw [hcount.1]
    simp only [List.append_assoc]
  simp only [Option.bind_eq_bind,Option.bind_some,hloose₂.dropPlace]
  rw [@release_of_tokens _ (Held.tokens (s₁.held ++ opening.map Held.token) ++ [.blockEntry])
    (by simp [push,allow,skip]),hheld]
  simp [push,allow,skip,between,hsound.margin,hloose₁.level,hsound.ended,hcursor]

lemma level_unroll (s : Scan) (limit : Nat) : (s.unroll limit).level = s.level := by
  unfold unroll
  split <;> rfl

/-- What is held back was not required, where the places of the current level could be given up. -/
lemma isFree_of_dropPlace (h : s.Sound b g) (hlevel : s.level = 0) {s₁ t t' : Scan} (hahead : s.ahead = some s₁)
    (ht : ∀ a ∈ s₁.held, a ∈ t.held) (htlevel : t.level = 0) (hdrop : t.dropPlace = some t') : Held.IsFree s.held := by
  obtain ⟨s₀,h₀,hahead⟩ := Option.map_eq_some_iff.mp hahead
  obtain ⟨held₀,hheld₀,h₀⟩ := Option.bind_eq_some_iff.mp h₀
  obtain ⟨held,hheld,-⟩ := Option.bind_eq_some_iff.mp hdrop
  cases h₀
  cases hahead
  intro a ha
  cases a with
  | token t => rfl
  | place l m required =>
    by_cases hstale : (Held.place l m required).isStale s.toNext.cursor.mark = true
    · exact Held.not_isRequired_of_giveUp hheld₀ ha hstale
    have ha₀ : Held.place l m required ∈ held₀ := by
      rw [Held.eq_filter_of_giveUp hheld₀]
      exact List.mem_filter.mpr ⟨ha,by simpa using hstale⟩
    refine Held.not_isRequired_of_giveUp hheld (ht _ ?_) ?_
    · unfold unroll
      split
      · exact ha₀
      · exact List.mem_append_left _ ha₀
    · have hl : l = 0 := Nat.eq_zero_of_le_zero (hlevel ▸ (h.places l m required ha).2)
      rw [hl,htlevel]
      rfl

/-- A step to the end of the stream, with all that is released then: as many brackets are left open by the tokens as
were open, and if there were none no key was required. -/
lemma loose_of_step (h : s.Sound b g) (hs : s.step = some (us,s')) (hended : s'.ended = true)
    (hmem : Token.streamEnd ∈ us) : nesting b us = s.level ∧ s.toNext.cursor.rest = [] ∧
      (∃ vs, us = vs ++ [.streamEnd] ∧ Token.streamEnd ∉ vs) ∧ (s.level = 0 → s.Loose) := by
  obtain ⟨s₁,hahead,⟨hrest,-,s₂,h₂,hrelease⟩ | ⟨c,r,s₂,hrest,hc,h₂,hrelease⟩⟩ := step_of_ahead hs
  case inr =>
    have he := (((h.ahead hahead).token h₂).release hrelease).2.ended
    rw [he] at hended
    cases hended
  have hsound := h.ahead hahead
  generalize hp : (⟨if s₁.cursor.mark.column = 0 then s₁.cursor.mark else s₁.cursor.mark.nextLine,[]⟩ : Cursor) = p at *
  have hend : s₁.streamEnd = (({ s₁ with cursor := p }.unroll 0).dropPlace).bind fun s =>
      some { (s.allow false).push .streamEnd with ended := true } := by
    rw [← hp]
    rfl
  rw [hend] at h₂
  obtain ⟨s₃,h₃,h₂⟩ := Option.bind_eq_some_iff.mp h₂
  cases h₂
  have hline : s₁.cursor.mark.line ≤ p.mark.line := by
    rw [← hp]
    dsimp only
    split
    · exact Nat.le_refl _
    · exact Nat.le_succ _
  have hsound₃ := ((hsound.toward (a := s₁.keyAllowed) hline).unroll 0).dropPlace h₃
  have hlevel₃ : s₃.level = s.level := by
    obtain ⟨s₀,h₀,hahead⟩ := Option.map_eq_some_iff.mp hahead
    obtain ⟨held,-,h₀⟩ := Option.bind_eq_some_iff.mp h₀
    rw [(reheld_of_dropPlace h₃).level,level_unroll]
    cases hahead
    cases h₀
    exact level_unroll _ _
  have htokens := tokens_of_release hrelease
  have hall : us = Held.tokens s₃.held ++ [.streamEnd] := by
    have heq : us ++ Held.tokens s'.held = Held.tokens s₃.held ++ [.streamEnd] := by
      rw [htokens]
      simp [push,allow,Held.tokens]
    rcases List.eq_nil_or_concat (Held.tokens s'.held) with hnil | ⟨v,w,hv⟩
    · rw [hnil,List.append_nil] at heq
      exact heq
    · rw [hv,List.concat_eq_append,← List.append_assoc] at heq
      have hfront := (List.append_inj' heq rfl).1
      exact absurd (hfront ▸ List.mem_append_left v hmem) hsound₃.streamEnd
  refine ⟨?_,by rw [← cursor_of_ahead hahead,hrest],⟨_,hall,hsound₃.streamEnd⟩,
    fun hlevel => .of_sound h hlevel fun a ha => ?_⟩
  · rw [hall,nesting_append,hsound₃.level,hlevel₃]
    rfl
  · refine isFree_of_dropPlace h hlevel hahead (fun a ha => ?_) ?_ h₃ a ha
    · unfold unroll
      split
      · exact ha
      · exact List.mem_append_left _ ha
    · rw [← (reheld_of_dropPlace h₃).level,hlevel₃,hlevel]

end Scan

end Keyring.Yaml
