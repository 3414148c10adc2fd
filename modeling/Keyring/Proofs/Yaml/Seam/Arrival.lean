import Keyring.Proofs.Yaml.Seam.Reach
import Keyring.Proofs.Yaml.Seam.Tokens

/-! The tokens of texts that end with an entry, whatever stands before it. -/
namespace Keyring.Yaml

variable {r w t : List Char} {m : Mark} {q : Cursor} {gap : Gap}

namespace Scan

variable {b : Nat} {s s' : Scan}

lemma level_of_rollAllowed {t : Token} (h : s.rollAllowed t = some s') : s'.level = s.level := by
  unfold rollAllowed roll at h
  split_ifs at h <;> cases h <;> rfl

lemma level_of_ahead (h : s.ahead = some s') : s'.level = s.level := by
  obtain ⟨s₁,h₁,h⟩ := Option.map_eq_some_iff.mp h
  obtain ⟨held,-,h₁⟩ := Option.bind_eq_some_iff.mp h₁
  cases h
  cases h₁
  exact level_unroll _ _

lemma level_of_word {read : List Char → Option (Token × List Char)} (h : s.word read = some s') :
    s'.level = s.level := by
  obtain ⟨s₁,h₁,h⟩ := Option.bind_eq_some_iff.mp h
  obtain ⟨⟨t,r'⟩,-,h⟩ := Option.bind_eq_some_iff.mp h
  dsimp only at h
  split_ifs at h
  cases h
  exact ((reheld_of_savePlace h₁).level : s₁.level = s.level)

lemma level_of_quotedScalar {read : Margin → Cursor → Option (List Char × Cursor)} (h : s.quotedScalar read = some s') :
    s'.level = s.level := by
  obtain ⟨s₁,h₁,h⟩ := Option.bind_eq_some_iff.mp h
  obtain ⟨⟨t,q⟩,-,h⟩ := Option.bind_eq_some_iff.mp h
  cases h
  exact ((reheld_of_savePlace h₁).level : s₁.level = s.level)

/-- Only a token that closes brackets leaves fewer of them open. -/
lemma level_le_of_read {k : Kind} (hk : ∀ mapping, k ≠ .flowEnd mapping) (hs : s.read k = some s') :
    s.level ≤ s'.level := by
  cases k with
  | flowStart mapping =>
    obtain ⟨s₁,h₁,hs⟩ := Option.bind_eq_some_iff.mp hs
    cases hs
    exact Nat.le_succ_of_le (reheld_of_savePlace h₁).level.ge
  | flowEnd mapping => exact absurd rfl (hk mapping)
  | flowEntry =>
    obtain ⟨s₁,h₁,hs⟩ := Option.bind_eq_some_iff.mp hs
    cases hs
    exact (reheld_of_dropPlace h₁).level.ge
  | blockEntry =>
    obtain ⟨s₁,h₁,hs⟩ := Option.bind_eq_some_iff.mp hs
    obtain ⟨s₂,h₂,hs⟩ := Option.bind_eq_some_iff.mp hs
    cases hs
    exact ((reheld_of_dropPlace h₂).level.trans (level_of_rollAllowed h₁)).ge
  | key =>
    obtain ⟨s₁,h₁,hs⟩ := Option.bind_eq_some_iff.mp hs
    obtain ⟨s₂,h₂,hs⟩ := Option.bind_eq_some_iff.mp hs
    cases hs
    exact ((reheld_of_dropPlace h₂).level.trans (level_of_rollAllowed h₁)).ge
  | value =>
    change s.value = some s' at hs
    cases hplace : Held.columnAt? s.level s.held with
    | none =>
      rw [value_of_none hplace] at hs
      obtain ⟨s₁,h₁,hs⟩ := Option.bind_eq_some_iff.mp hs
      cases hs
      exact (level_of_rollAllowed h₁).ge
    | some column =>
      rw [value_of_some hplace] at hs
      cases hs
      exact Nat.le_refl s.level
  | name anchor => exact (level_of_word hs).ge
  | tag => exact (level_of_word hs).ge
  | blockScalar folded =>
    obtain ⟨s₁,h₁,hs⟩ := Option.bind_eq_some_iff.mp hs
    obtain ⟨⟨t,q⟩,-,hs⟩ := Option.bind_eq_some_iff.mp hs
    dsimp only at hs
    split_ifs at hs
    cases hs
    exact (reheld_of_dropPlace h₁).level.ge
  | singleQuoted => exact (level_of_quotedScalar hs).ge
  | doubleQuoted => exact (level_of_quotedScalar hs).ge
  | plainScalar =>
    obtain ⟨s₁,h₁,hs⟩ := Option.bind_eq_some_iff.mp hs
    obtain ⟨⟨t,broken,q⟩,-,hs⟩ := Option.bind_eq_some_iff.mp hs
    cases hs
    exact (reheld_of_savePlace h₁).level.ge

lemma ne_flowEnd_of_kind? {flow mapping : Bool} {c : Char} {r : List Char} (hc : c ≠ ']' ∧ c ≠ '\x7d') :
    kind? flow c r ≠ some (.flowEnd mapping) := by
  have hother {p : Prop} [Decidable p] {k : Kind} {o : Option Kind} (hk : k ≠ .flowEnd mapping)
      (ho : o ≠ some (.flowEnd mapping)) : (if p then some k else o) ≠ some (.flowEnd mapping) := by
    split
    · exact fun h => hk (Option.some.inj h)
    · exact ho
  unfold kind?
  refine hother Kind.noConfusion (hother Kind.noConfusion ?_)
  rw [if_neg hc.1,if_neg hc.2]
  iterate 12 refine hother Kind.noConfusion ?_
  exact nofun

lemma level_le_of_token (hm : s.margin = []) {c : Char} (hc : c ≠ ']' ∧ c ≠ '\x7d') (hs : s.token c r = some s') :
    s.level ≤ s'.level := by
  have hmark {t : Token} (hs : s.documentMark t = some s') : s.level ≤ s'.level := by
    obtain ⟨s₁,h₁,hs⟩ := Option.bind_eq_some_iff.mp hs
    cases hs
    exact ((reheld_of_dropPlace h₁).level.trans (level_unroll s 0)).ge
  rw [token_eq] at hs
  split_ifs at hs
  · obtain ⟨held,t,r',-,-,rfl⟩ := (directive_eq_some_iff hm).mp hs
    exact (level_unroll s 0).ge
  · exact hmark hs
  · exact hmark hs
  · obtain ⟨k,hk,hs⟩ := Option.bind_eq_some_iff.mp hs
    refine level_le_of_read (fun mapping hend => ?_) hs
    exact ne_flowEnd_of_kind? hc (hend ▸ hk)

variable {n : Nat} {g : Margin} {e : Scan} {ts : List Token}

lemma toNext_suffix (s : Scan) : s.toNext.cursor.rest <:+ s.cursor.rest :=
  (nextFrom_append s.toNext.keyAllowed s.toNext.cursor
    (rfl : nextFrom s.inFlow false s.keyAllowed s.cursor.mark s.cursor.rest = _) []).1

/-- Where no bracket is closed in the text ahead, none of those open is. -/
lemma Steps.level_le (h : Steps n s ts e) (hs : s.Sound b)
    (hrest : ∀ c ∈ s.toNext.cursor.rest, c ≠ ']' ∧ c ≠ '\x7d') : s.level ≤ e.level := by
  induction h generalizing b with
  | refl => exact Nat.le_refl _
  | @step n s s' u ts us hstep he _ ih =>
    obtain ⟨s₁,c,r,s₂,hahead,h₁,hr,hc,htoken,h₂,hrelease⟩ := token_of_step hs hstep he
    obtain ⟨hcursor,-,hlevel⟩ := same_of_release hrelease
    rw [← cursor_of_ahead hahead] at hrest
    have hsuffix := (toNext_suffix s').trans (hcursor ▸ suffix_of_token h₁.margin hr hc htoken)
    refine Nat.le_trans ?_ (ih (hs.step hstep he).2 fun c hc => hrest c (hsuffix.subset hc))
    rw [hlevel,← level_of_ahead hahead]
    exact level_le_of_token h₁.margin (hrest c (hr ▸ List.mem_cons_self)) htoken

lemma toNext_reaches {y : List Char} (h : s.cursor.Reaches ('-' :: y)) :
    s.toNext.cursor.rest = '-' :: y ∧ s.toNext.cursor.mark.column = 0 ∨
      ∃ w, w.getLast? = some '\n' ∧ s.toNext.cursor.rest = w ++ '-' :: y := by
  obtain ⟨w,hw,hline⟩ := h
  have hs : s = ({ s with cursor := ⟨s.cursor.mark,w⟩ } : Scan).append ('-' :: y) := by
    rw [append,Cursor.append,← hw]
  obtain ⟨hnext,hline',-⟩ := toNext_append_hyphen (s := { s with cursor := ⟨s.cursor.mark,w⟩ }) hline y
  rw [hs,hnext]
  rcases hline' with hlast | ⟨hnil,hcolumn⟩
  · exact .inr ⟨_,hlast,rfl⟩
  · refine .inl ⟨?_,hcolumn⟩
    rw [append,Cursor.append,hnil]
    rfl

/-- A scan to the end of a text comes to the begin of the line of an entry, unless a scalar goes on in the entry. -/
lemma Steps.exists_arrival (h : Steps n s ts e) (hs : s.Sound b) {y : List Char} (hreach : s.cursor.Reaches ('-' :: y))
    (hy : '"' ∉ y) (hend : e.toNext.cursor.rest = []) : ∃ k us m vs t, Steps k s us t ∧ Steps m t vs e ∧ ts = us ++ vs ∧
      t.cursor.Reaches ('-' :: y) ∧ (t.toNext.cursor.rest = '-' :: y ∨
        ∃ t₁ t₂ p, t.ahead = some t₁ ∧ t₁.cursor.mark.line < p.line ∧ GoesOn ('-' :: y) p t₁ t₂ ∧
          t.step = t₂.release) := by
  induction h generalizing b with
  | refl s =>
    rcases toNext_reaches hreach with ⟨hrest,-⟩ | ⟨w,-,hrest⟩
    · rw [hrest] at hend
      cases hend
    · rw [hrest] at hend
      simp at hend
  | @step n s s' u ts us hstep he hrest ih =>
    obtain ⟨s₁,c,r,s₂,hahead,h₁,hr,hc,htoken,h₂,hrelease⟩ := token_of_step hs hstep he
    rcases toNext_reaches hreach with ⟨hnext,-⟩ | ⟨w,hw,hnext⟩
    · exact ⟨0,[],n+1,ts ++ us,s,.refl s,.step hstep he hrest,rfl,hreach,.inl hnext⟩
    rw [← cursor_of_ahead hahead,hr] at hnext
    obtain ⟨d,w,rfl⟩ := List.exists_cons_of_ne_nil (l := w) (by rintro rfl; cases hw)
    obtain ⟨rfl,rfl⟩ := List.cons.inj hnext
    have hw' : w.getLast? = some '\n' := (getLast?_cons hw).resolve_right fun h => hc h.2
    rcases token_reaches h₁.margin hr hc hw' hy htoken with hreach' | ⟨p,hp,hgoes⟩
    · rw [← (same_of_release hrelease).1] at hreach'
      obtain ⟨k,us',m,vs,t,hsteps,hsteps',rfl,ht⟩ := ih (hs.step hstep he).2 hreach' hend
      exact ⟨k+1,ts ++ us',m,vs,t,.step hstep he hsteps,hsteps',by rw [List.append_assoc],ht⟩
    · refine ⟨0,[],n+1,ts ++ us,s,.refl s,.step hstep he hrest,rfl,hreach,.inr ⟨s₁,s₂,p,hahead,hp,hgoes,?_⟩⟩
      rw [hstep,hrelease]

lemma held_of_rollAllowed {t : Token} (h : s.rollAllowed t = some s') {a : Held} (ha : a ∈ s.held) : a ∈ s'.held := by
  unfold rollAllowed roll at h
  split_ifs at h <;> cases h
  · exact ha
  · exact List.mem_append_left _ ha
  · exact ha

/-- Where the hyphen of an entry could be read, a key may begin, and none was required before. -/
lemma loose_of_hyphen (h : s.Sound b g) (hlevel : s.level = 0) {z : List Char}
    (hrest : s.toNext.cursor.rest = '-' :: ' ' :: z) (hs : s.step = some (ts,s')) :
    s.Loose ∧ s.toNext.keyAllowed = true := by
  obtain ⟨s₁,hahead,⟨hnil,-⟩ | ⟨c,r,s₂,hr,-,htoken,-⟩⟩ := step_of_ahead hs
  · rw [cursor_of_ahead hahead,hrest] at hnil
    cases hnil
  rw [cursor_of_ahead hahead,hrest] at hr
  obtain ⟨rfl,rfl⟩ := List.cons.inj hr
  have hentry : s₁.token '-' (' ' :: z) = s₁.blockEntry := by
    have hmark : isDocumentMark ('-' :: ' ' :: z) = false := rfl
    simp [token,hmark,atSpace,isSpace,isBlank]
  rw [hentry] at htoken
  obtain ⟨s₃,h₃,htoken⟩ := Option.bind_eq_some_iff.mp htoken
  obtain ⟨s₄,h₄,-⟩ := Option.bind_eq_some_iff.mp htoken
  have hlevel₁ : s₁.level = 0 := (level_of_ahead hahead).trans hlevel
  refine ⟨.of_sound h hlevel ?_,?_⟩
  · exact isFree_of_dropPlace h hlevel hahead (fun a => held_of_rollAllowed h₃)
      ((level_of_rollAllowed h₃).trans hlevel₁) h₄
  · rw [← keyAllowed_of_ahead hahead]
    unfold rollAllowed at h₃
    rw [if_neg (by simp [inFlow,hlevel₁])] at h₃
    split_ifs at h₃ with hallowed
    exact hallowed

/-- A run that comes to the end of the stream makes no more tokens than it did. -/
lemma run_eq_of_streamEnd (h : s.Sound b g) (hmem : Token.streamEnd ∈ (s.run n).1) {k : Nat} (hk : n ≤ k) :
    s.run k = s.run n := by
  induction n generalizing s b k with
  | zero => cases hmem
  | succ n ih =>
    obtain ⟨k,rfl⟩ := Nat.exists_eq_add_of_le' (Nat.le_trans (Nat.succ_pos n) hk)
    rw [run] at hmem ⊢
    rw [run]
    cases hstep : s.step with
    | none => rfl
    | some p =>
      obtain ⟨ts,s'⟩ := p
      rw [hstep] at hmem
      dsimp only at hmem ⊢
      cases he : s'.ended with
      | true => rfl
      | false =>
        obtain ⟨hts,hs'⟩ := h.step hstep he
        rw [he,if_neg Bool.false_ne_true] at hmem
        rw [if_neg Bool.false_ne_true,if_neg Bool.false_ne_true,
          ih hs' ((List.mem_append.mp hmem).resolve_left hts) (Nat.le_of_succ_le_succ hk)]

/-- Where a plain word stands, no key may begin and only tokens are held back, the next token is a plain scalar. -/
lemma step_word {c : Char} (hc : isPlainWord c) {z : List Char} (h : s.Sound b) (hrest : s.cursor.rest = c :: z)
    (hallowed : s.keyAllowed = false) (hheld : s.held = []) (hs : s.step = some (ts,s')) :
    ∃ k t, ts = List.replicate k .blockEnd ++ [.scalar t true] := by
  have hnext : s.toNext = s := by
    have hat := nextFrom_of_isPlainWord hc s.inFlow s.keyAllowed s.cursor.mark z
    rw [← hrest] at hat
    exact toNext_of_nextFrom hat
  obtain ⟨s₁,hahead,⟨hnil,-⟩ | ⟨d,r,s₂,hr,-,htoken,hrelease⟩⟩ := step_of_ahead hs
  · rw [cursor_of_ahead hahead,hnext,hrest] at hnil
    cases hnil
  rw [cursor_of_ahead hahead,hnext,hrest] at hr
  obtain ⟨rfl,rfl⟩ := List.cons.inj hr
  obtain ⟨k,hk⟩ : ∃ k, s₁.held = List.replicate k (.token .blockEnd) := by
    obtain ⟨s₀,h₀,hahead⟩ := Option.map_eq_some_iff.mp hahead
    rw [hnext] at h₀
    obtain ⟨held,hheld₀,h₀⟩ := Option.bind_eq_some_iff.mp h₀
    rw [hheld] at hheld₀
    cases hheld₀
    cases h₀
    cases hahead
    unfold unroll
    split
    · exact ⟨0,rfl⟩
    · rw [closeFrom_eq]
      exact ⟨_,rfl⟩
  have hallowed₁ : s₁.keyAllowed = false := by rw [keyAllowed_of_ahead hahead,hnext,hallowed]
  rw [token_of_isPlainWord hc] at htoken
  obtain ⟨held,t,broken,q,hsave,-,rfl⟩ := (plainScalar_eq_some_iff (h.ahead hahead).margin).mp htoken
  have hheld₁ : s₁.held = held := by
    rw [savePlace,if_neg (by simp [hallowed₁])] at hsave
    exact congrArg Scan.held (Option.some.inj hsave)
  refine ⟨k,t,?_⟩
  rw [(release_of_stale (fun l m required hm => ?_) hrelease).1]
  · rw [scalarRead,← hheld₁,hk,Held.tokens_append,Held.tokens_replicate]
    rfl
  · rw [scalarRead,← hheld₁,hk] at hm
    simp at hm

/-- Tokens of two scalars between which there are only the ends of blocks. -/
def HasNeighbours (ts : List Token) : Prop := ∃ us t k t' vs,
  ts = us ++ Token.scalar t false :: (List.replicate k .blockEnd ++ Token.scalar t' true :: vs)

/-- Where a scalar in single quotes ends within the text, another one begins there. -/
lemma neighbours_of_release {s₁ : Scan} {held : List Held} {t : List Char} {q : Cursor} {c : Char} {z : List Char}
    (h : s₁.Sound b) (hm : s₁.cursor.mark.line < q.mark.line) (hsave : s₁.savePlace = some { s₁ with held := held })
    (hq : q.rest = c :: z) (hc : isPlainWord c) (hrelease : (s₁.scalarRead held t false false q).release = some (ts,s))
    {us : List Token} {b' : Nat} (hs : s.Sound b') (hstep : s.step = some (us,s')) : HasNeighbours (ts ++ us) := by
  obtain ⟨rfl,rfl⟩ := release_scalarRead h hsave hrelease hm
  obtain ⟨k,t',rfl⟩ := step_word hc hs hq rfl rfl hstep
  exact ⟨Held.tokens held,t,k,t',[],by simp⟩

lemma HasNeighbours.append (h : HasNeighbours ts) (us vs : List Token) : HasNeighbours (us ++ (ts ++ vs)) := by
  obtain ⟨us',t,k,t',vs',rfl⟩ := h
  exact ⟨us ++ us',t,k,t',vs' ++ vs,by simp⟩

end Scan

/-- A plain word stands behind the first single quote. -/
def QuotesWord (y : List Char) : Prop := ∀ p z, y = p ++ '\'' :: z → '\'' ∉ p → ∃ c z', z = c :: z' ∧ isPlainWord c

lemma QuotesWord.append {x y : List Char} (hx : '\'' ∉ x) (hy : QuotesWord y) : QuotesWord (x ++ y) := by
  intro p z h hp
  rcases List.append_eq_append_iff.mp h with ⟨v,rfl,hv⟩ | ⟨v,rfl,hv⟩
  · exact hy v z hv fun hmem => hp (List.mem_append_right x hmem)
  · cases v with
    | nil => exact hy [] z hv.symm List.not_mem_nil
    | cons d v =>
      obtain ⟨rfl,-⟩ := List.cons.inj hv
      exact absurd (List.mem_append_right p List.mem_cons_self) hx

/-- A text that begins with a hyphen and closes no brackets, without double quotes, where a plain word stands behind the
first single quote. -/
structure Tame (y : List Char) : Prop where
  hyphen : ∃ z, y = '-' :: ' ' :: z
  quote : '"' ∉ y
  bracket : ∀ c ∈ y, c ≠ ']' ∧ c ≠ '\x7d'
  word : QuotesWord y

lemma Tame.singleFrom {y : List Char} (h : Tame y) (hr : singleFrom [] gap m y = some (t,q)) :
    m.line ≤ q.mark.line ∧ ∃ c z, q.rest = c :: z ∧ isPlainWord c := by
  obtain ⟨p,z,rfl,hp⟩ := List.eq_append_cons_of_mem (singleFrom_mem hr)
  obtain ⟨c,z,rfl,hc⟩ := h.word p z rfl hp
  exact ⟨singleFrom_line hr,c,z,singleFrom_first hp (ne_of_isPlainWord hc (by decide)) hr,hc⟩

namespace Scan

lemma GoesOn.ended {y : List Char} {p : Mark} {s₁ s₂ : Scan} (h : GoesOn y p s₁ s₂) : s₂.ended = s₁.ended := by
  cases h <;> rfl

/-- A scalar that goes on in an entry is followed by another one, or by nothing that could be read. -/
lemma GoesOn.neighbours {entry : Entry} (hy : Tame entry.text) {s₁ s₂ : Scan} {p : Mark}
    (h : s₁.Sound b) (hp : s₁.cursor.mark.line < p.line) (hgoes : GoesOn entry.text p s₁ s₂)
    (hrelease : s₂.release = some (ts,s)) {b' : Nat} (hs : s.Sound b') {us : List Token} (hsteps : Steps n s us e)
    (hlevel : e.level = 0) {vs : List Token} (hstep : e.step = some (vs,s')) :
    HasNeighbours (ts ++ us ++ vs) := by
  cases hgoes with
  | @quoted held gap t t' q hsave hread =>
    obtain ⟨hline,c,z,hq,hc⟩ := hy.singleFrom hread
    have hnear {us : List Token} {s' : Scan} (hstep : s.step = some (us,s')) : HasNeighbours (ts ++ us) :=
      neighbours_of_release h (Nat.lt_of_lt_of_le hp hline) hsave hq hc hrelease hs hstep
    cases hsteps with
    | refl => simpa using hnear hstep
    | @step n _ s₃ _ ts' us' hstep' _ _ => simpa using (hnear hstep').append [] (us' ++ vs)
  | @plain held gap t t' broken q hsave hinside hread =>
    exfalso
    obtain ⟨hcursor,hindents,hlevel'⟩ := same_of_release hrelease
    have hlevel₁ : s₁.level = 0 := by
      have hsuffix : s.cursor.rest <:+ entry.text :=
        hcursor ▸ (plainFrom_append (y := ['\n']) (fun _ => .inl rfl) hread).1
      have hle := hsteps.level_le hs fun c hc => hy.bracket c (((toNext_suffix s).trans hsuffix).subset hc)
      rw [hlevel,hlevel'] at hle
      exact Nat.eq_zero_of_le_zero hle
    have hflow : s₁.inFlow = false := by simp [inFlow,hlevel₁]
    have hindents₁ : s₁.indents = [] := hinside.resolve_left (by simp [hflow])
    have htext := entry.text_append []
    rw [List.append_nil,List.append_nil] at htext
    rw [hflow,hindents₁,plainIndent,htext] at hread
    obtain ⟨t'',m₂,hhyphen,hline⟩ := plainFrom_hyphen entry.first gap p ('\n' :: Field.lines entry.others)
    rw [hhyphen] at hread
    cases hread
    have hline' : s₁.cursor.mark.line < m₂.line := hline ▸ hp
    have hbetween :
        s = between m₂ (':' :: ' ' :: (entry.first.spelling ++ '\n' :: Field.lines entry.others)) [] false := by
      rw [(release_scalarRead h hsave hrelease hline').2]
      simp [scalarRead,between,h.margin,hindents₁,hlevel₁,h.ended]
    have hnone := step_colon_none m₂ (entry.first.spelling ++ '\n' :: Field.lines entry.others)
    rw [← hbetween] at hnone
    cases hsteps with
    | refl =>
      rw [hnone] at hstep
      cases hstep
    | step hstep' =>
      rw [hnone] at hstep'
      cases hstep'

end Scan

open Scan

/-- Where the stream has an end, its tokens are those on the way to the end of the text and behind it. -/
lemma tokens_of_emits {t : List Char} {n : Nat} {vs : List Token} {m : Mark} {is : List Nat} {a : Bool}
    (h : Emits n (start ⟨t,[]⟩) vs (between m [] is a)) (hmem : Token.streamEnd ∈ (tokens ⟨t,[]⟩).1) :
    (tokens ⟨t,[]⟩).1 = vs ++ (List.replicate is.length Token.blockEnd ++ [Token.streamEnd]) := by
  have hrun := run_of_emits h (t.length+1)
  have hsame := run_eq_of_streamEnd (Sound.of_start t) hmem (k := n+(t.length+1)) (Nat.le_add_left _ n)
  rw [hrun,run_end (Nat.succ_pos _)] at hsame
  exact (congrArg Prod.fst hsame).symm

/-- An entry behind a text whose last line is ended: if the tokens come to the end of the stream and close all their
brackets, those of the entry stand last, unless two scalars are neighbours. -/
theorem tokens_of_entry {g : List Char} (hg : g = [] ∨ g.getLast? = some '\n') {entry : Entry} (hy : Tame entry.text)
    (hmem : Token.streamEnd ∈ (tokens ⟨g ++ entry.text,[]⟩).1)
    (hlevel : nesting 0 (tokens ⟨g ++ entry.text,[]⟩).1 = 0) :
    (∃ us is, (tokens ⟨g ++ entry.text,[]⟩).1 = entryTokens us is [entry]) ∨
      HasNeighbours (tokens ⟨g ++ entry.text,[]⟩).1 := by
  have hstart : (start ⟨g ++ entry.text,[]⟩).Sound 0 := Sound.of_start _
  obtain ⟨n,ts,e,us,e',hn,hsteps,hlast,hended,hrun,-⟩ := exists_steps hstart hmem
  obtain ⟨hts,hsound⟩ := hsteps.sound hstart
  have hall : (tokens ⟨g ++ entry.text,[]⟩).1 = ts ++ us := hrun
  have hend := hmem
  rw [hall] at hlevel hend
  obtain ⟨hlevel',hrest,-,-⟩ := loose_of_step hsound hlast hended ((List.mem_append.mp hend).resolve_left hts)
  rw [nesting_append,hlevel'] at hlevel
  obtain ⟨z,hz⟩ := hy.hyphen
  have hreach : (start ⟨g ++ entry.text,[]⟩).cursor.Reaches ('-' :: ' ' :: z) :=
    ⟨g,by rw [← hz]; rfl,hg.symm.imp_right fun h => ⟨h,rfl⟩⟩
  have hquote : '"' ∉ ' ' :: z := fun h => hy.quote (hz ▸ List.mem_cons_of_mem _ h)
  obtain ⟨k,us₁,m,vs,t,hsteps₁,hsteps₂,rfl,⟨w,hw,hline⟩,harrival⟩ := hsteps.exists_arrival hstart hreach hquote hrest
  obtain ⟨-,ht⟩ := hsteps₁.sound hstart
  rcases harrival with hnext | ⟨t₁,t₂,p,hahead,hp,hgoes,hstep⟩
  · refine .inl ?_
    cases hsteps₂ with
    | refl =>
      rw [hnext] at hrest
      cases hrest
    | @step m _ t' _ ts' us' hstep he hsteps₂ =>
      have hle : t.level ≤ e.level := (Steps.step hstep he hsteps₂).level_le ht fun c hc =>
        hy.bracket c (by rw [hz,← hnext]; exact hc)
      obtain ⟨hloose,hallowed⟩ := loose_of_hyphen ht (Nat.eq_zero_of_le_zero (hlevel ▸ hle)) hnext hstep
      -- The scan as it would be if the text ended before the entry.
      have happend : t = ({ t with cursor := ⟨t.cursor.mark,w⟩ } : Scan).append ('-' :: ' ' :: z) := by
        rw [append,Cursor.append,← hw]
      obtain ⟨hnext',-,-⟩ := toNext_append_hyphen (s := { t with cursor := ⟨t.cursor.mark,w⟩ }) hline (' ' :: z)
      rw [← happend] at hnext'
      rw [hnext'] at hnext hallowed
      obtain ⟨p,vs,hemits,htokens⟩ := emits_behind (e := { t with cursor := ⟨t.cursor.mark,w⟩ }) { ht with }
        { hloose with } hline (List.append_left_eq_self.mp hnext) hallowed entry []
      rw [List.flatMap_singleton,hz,← happend] at hemits
      have htokens' := htokens us₁
      rw [← List.append_assoc] at htokens'
      exact ⟨_,_,(tokens_of_emits (hsteps₁.emits.trans hemits) hmem).trans htokens'⟩
  · refine .inr ?_
    rw [hall]
    have ht₂ := (ht.ahead hahead)
    cases hsteps₂ with
    | refl =>
      rw [hstep] at hlast
      rw [ended_of_release hlast,hgoes.ended,ht₂.ended] at hended
      cases hended
    | @step m _ t' _ ts' us' hstep' he hsteps₂ =>
      have ht' := (ht.step hstep' he).2
      rw [hstep] at hstep'
      rw [← hz] at hgoes
      simpa using (hgoes.neighbours hy ht₂ hp hstep' ht' hsteps₂ hlevel hlast).append us₁ []

end Keyring.Yaml
