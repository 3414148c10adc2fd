import Keyring.Proofs.Yaml.Seam.Break

/-! The tokens of texts with a line feed or an entry put behind them. -/
namespace Keyring.Yaml

open Scan

/-- A scan over the text `t` comes to its end in `e`, with the tokens `ts` released before. There, no bracket is open
and no key is required. -/
structure EndsAt (t : List Char) (ts : List Token) (e : Scan) : Prop where
  steps : ∃ n ≤ t.length, Steps n (start ⟨t,[]⟩) ts e
  sound : e.Sound (nesting 0 ts)
  loose : e.Loose
  rest : e.toNext.cursor.rest = []

namespace EndsAt

variable {t : List Char} {ts : List Token} {e : Scan}

lemma tokens_eq (h : EndsAt t ts e) : tokens ⟨t,[]⟩ =
    (ts ++ Held.tokens e.held ++ List.replicate e.indents.length Token.blockEnd ++ [Token.streamEnd],true) := by
  obtain ⟨n,hn,hsteps⟩ := h.steps
  obtain ⟨e',hlast,hended⟩ := step_end h.sound h.loose h.rest
  obtain ⟨k,hk⟩ := Nat.exists_eq_add_of_le hn
  have hrun := run_of_emits hsteps.emits (k+1)
  rw [tokens,show t.length+1 = n+(k+1) by omega]
  rw [hrun,run,hlast]
  simp [hended]

lemma atEnd?_of_steps {n k : Nat} {s e e' : Scan} {us : List Token} (h : Steps n s ts e) (he : e.step = some (us,e'))
    (hended : e'.ended = true) (hn : n < k) : s.atEnd? k = some e := by
  induction h generalizing k with
  | refl s =>
    obtain ⟨k,rfl⟩ := Nat.exists_eq_succ_of_ne_zero (Nat.ne_of_gt hn)
    rw [atEnd?,he]
    simp [hended]
  | step hstep ht _ ih =>
    obtain ⟨k,rfl⟩ := Nat.exists_eq_succ_of_ne_zero (Nat.ne_of_gt (Nat.zero_lt_of_lt hn))
    rw [atEnd?,hstep]
    simpa [ht] using ih he (Nat.lt_of_succ_lt_succ hn)

lemma isOpen_eq (h : EndsAt t ts e) : Source.isOpen ⟨t,[]⟩ = ((tokens ⟨t,[]⟩).1.all (· ≠ .documentEnd) &&
    (e.indents.getLast? == some 0 || (tokens ⟨t,[]⟩).1.all isPrelude)) := by
  obtain ⟨n,hn,hsteps⟩ := h.steps
  obtain ⟨e',hlast,hended⟩ := step_end h.sound h.loose h.rest
  rw [Source.isOpen,atEnd?_of_steps hsteps hlast hended (Nat.lt_succ_of_le hn)]

end EndsAt

/-- Tokens that come to the end of the stream have it last and only there, and no margin hides it. -/
lemma exists_streamEnd {t : Source} (hmem : Token.streamEnd ∈ (tokens t).1) :
    t.margin.lacks 4 [] = false ∧ ∃ ts, (tokens t).1 = ts ++ [Token.streamEnd] ∧ Token.streamEnd ∉ ts := by
  have hstart : (start t).Sound 0 t.margin := Sound.of_start t.chars
  obtain ⟨n,ts,e,us,e',-,hsteps,hlast,hended,hrun,hat⟩ := exists_steps hstart hmem
  obtain ⟨hts,hsound⟩ := hsteps.sound hstart
  rw [tokens,hrun] at hmem
  obtain ⟨-,-,⟨vs,rfl,hvs⟩,-⟩ := loose_of_step hsound hlast hended ((List.mem_append.mp hmem).resolve_left hts)
  refine ⟨lacks_of_atEnd? hstart hat,ts ++ vs,?_,?_⟩
  · rw [tokens,hrun,List.append_assoc]
  · rw [List.mem_append,not_or]
    exact ⟨hts,hvs⟩

lemma lacks_of_isOpen {t : Source} (h : t.isOpen = true) : t.margin.lacks 4 [] = false := by
  rw [Source.isOpen] at h
  cases hat : (start t).atEnd? (t.chars.length+1) with
  | none =>
    rw [hat] at h
    cases h
  | some e => exact lacks_of_atEnd? (b := 0) (Sound.of_start t.chars) hat

/-- Tokens that come to the end of the stream and close all their brackets are those of a scan over the whole text. -/
lemma exists_endsAt {t : List Char} (hmem : Token.streamEnd ∈ (tokens ⟨t,[]⟩).1)
    (hlevel : nesting 0 (tokens ⟨t,[]⟩).1 = 0) : ∃ ts e, EndsAt t ts e := by
  obtain ⟨n,ts,e,us,e',hn,hsteps,hlast,hended,hrun,-⟩ := exists_steps (Sound.of_start t) hmem
  obtain ⟨hts,hsound⟩ := hsteps.sound (Sound.of_start t)
  rw [tokens,hrun] at hmem hlevel
  obtain ⟨hlevel',hrest,-,hloose⟩ := loose_of_step hsound hlast hended ((List.mem_append.mp hmem).resolve_left hts)
  rw [nesting_append,hlevel'] at hlevel
  exact ⟨ts,e,⟨n,Nat.le_of_lt_succ hn,hsteps⟩,hsound,hloose hlevel,hrest⟩

lemma append_start (t y : List Char) : (start ⟨t,[]⟩).append y = start ⟨t ++ y,[]⟩ := rfl

lemma Token.all_of_grown {p : Token → Bool} (hp : ∀ t t', Token.Grown t t' → p t' = p t) {ts us : List Token}
    (h : List.Forall₂ Token.Grown ts us) : us.all p = ts.all p := by
  induction h with
  | nil => rfl
  | cons h _ ih => rw [List.all_cons,List.all_cons,hp _ _ h,ih]

/-- A line feed behind a text does not change its tokens, up to the growth of a scalar, nor whether it is open. -/
theorem tokens_append_lf {t : List Char} (hmem : Token.streamEnd ∈ (tokens ⟨t,[]⟩).1)
    (hlevel : nesting 0 (tokens ⟨t,[]⟩).1 = 0) :
    List.Forall₂ Token.Grown (tokens ⟨t,[]⟩).1 (tokens ⟨t ++ ['\n'],[]⟩).1 ∧
      Source.isOpen ⟨t ++ ['\n'],[]⟩ = Source.isOpen ⟨t,[]⟩ := by
  obtain ⟨ts,e,h⟩ := exists_endsAt hmem hlevel
  obtain ⟨n,hn,hsteps⟩ := h.steps
  obtain ⟨ts',e',hsteps',hrest,hindents,hloose,hgrown⟩ := hsteps.append_lf (Sound.of_start t) h.loose h.rest
  rw [append_start] at hsteps'
  have h' : EndsAt (t ++ ['\n']) ts' e' := by
    refine ⟨⟨n,Nat.le_trans hn (by simp),hsteps'⟩,?_,hloose,hrest⟩
    exact (hsteps'.sound (Sound.of_start (t ++ ['\n']))).2
  have hall : List.Forall₂ Token.Grown (tokens ⟨t,[]⟩).1 (tokens ⟨t ++ ['\n'],[]⟩).1 := by
    rw [h.tokens_eq,h'.tokens_eq,hindents]
    exact List.rel_append (List.rel_append hgrown (Token.grown_refl _)) (Token.grown_refl _)
  refine ⟨hall,?_⟩
  rw [h.isOpen_eq,h'.isOpen_eq,hindents,Token.all_of_grown (fun t t' ht => ?_) hall,
    Token.all_of_grown (fun t t' ht => ?_) hall]
  · cases ht <;> rfl
  · cases ht <;> rfl

/-- Of the blocks open at columns that grow inwards, an entry in the first column closes all but one that stands
there. -/
lemma closes_of_sorted {is : List Nat} (h : is.Pairwise (· > ·)) :
    is.getLast? = some 0 ∧ (∃ k, k+1 = is.length ∧ Closes is k [] []) ∨
      is.getLast? ≠ some 0 ∧ Closes is is.length [.blockSequenceStart] [] := by
  have hsplit := List.takeWhile_append_dropWhile (p := fun i => decide (1 ≤ i)) (l := is)
  have hhead := List.head?_dropWhile_not (fun i => decide (1 ≤ i)) is
  have hclose := closeFrom_eq 1 is
  cases hbase : is.dropWhile (1 ≤ ·) with
  | nil =>
    rw [hbase,List.append_nil] at hsplit
    rw [hbase,hsplit] at hclose
    refine Or.inr ⟨fun hlast => ?_,Or.inl ⟨hclose,rfl,rfl⟩⟩
    have hmem : 0 ∈ is.takeWhile (1 ≤ ·) := hsplit.symm ▸ List.mem_of_getLast? hlast
    simpa using List.mem_takeWhile_imp hmem
  | cons j js =>
    have hj : j = 0 := by simpa [hbase] using hhead
    subst hj
    rw [hbase] at hsplit
    have hjs : js = [] := by
      have hsorted : (0 :: js).Pairwise (· > ·) := (hsplit ▸ h).sublist (List.sublist_append_right _ _)
      refine List.eq_nil_iff_forall_not_mem.mpr fun i hi => ?_
      exact absurd ((List.pairwise_cons.mp hsorted).1 i hi) (Nat.not_lt_zero i)
    subst hjs
    rw [hbase] at hclose
    refine Or.inl ⟨by rw [← hsplit]; simp,(is.takeWhile (1 ≤ ·)).length,?_,Or.inr ⟨hclose,rfl⟩⟩
    simpa using congrArg List.length hsplit

/-- Behind the tokens `us` and the blocks at the columns `is`, entries go on with the list in the first column, or begin
one. -/
def entryTokens (us : List Token) (is : List Nat) (es : List Entry) : List Token :=
  us ++ (if is.getLast? = some 0 then List.replicate (is.length-1) Token.blockEnd
    else List.replicate is.length Token.blockEnd ++ [Token.blockSequenceStart]) ++
    es.flatMap (fun e => e.tokens ++ [Token.blockEnd]) ++ [Token.blockEnd,.streamEnd]

/-- Entries behind a text, where the scan of the text came to its end: they go on with the list in the first column, or
begin one. -/
lemma Scan.emits_behind {e : Scan} {b : Nat} (hsound : e.Sound b) (hloose : e.Loose)
    (hline : EndsLine e.cursor.mark e.cursor.rest) (hrest : e.toNext.cursor.rest = [])
    (hallowed : e.toNext.keyAllowed = true) (entry : Entry) (es : List Entry) : ∃ m vs,
      Emits ((entry :: es).map Entry.count).sum (e.append ((entry :: es).flatMap Entry.text)) vs
        (between m [] [2,0] true) ∧
      ∀ us, us ++ (vs ++ [.blockEnd,.blockEnd,.streamEnd]) =
        entryTokens (us ++ Held.tokens e.held) e.indents (entry :: es) := by
  obtain ⟨-,hline',-⟩ := toNext_append_hyphen hline []
  have hcolumn : e.toNext.cursor.mark.column = 0 := (hline'.resolve_left fun hl => by simp [hrest] at hl).2
  obtain ⟨m,hm,hcontent⟩ := emits_content entry hcolumn [] (Entry.precedes_flatMap es (Or.inl rfl))
  obtain ⟨m',-,hentries⟩ := emits_entries es hm (Or.inl rfl)
  have htext : (entry :: es).flatMap Entry.text =
      '-' :: ' ' :: (entry.first.line ++ ('\n' :: (Field.lines entry.others ++ (es.flatMap Entry.text ++ [])))) := by
    rw [List.append_nil,List.flatMap_cons,entry.text_append]
  have hcount : ((entry :: es).map Entry.count).sum = 3+3*entry.others.length+(es.map Entry.count).sum+1 := by
    simp only [List.map_cons,List.sum_cons,Entry.count]
    omega
  have htokens : entry.tokens = [.blockEntry,.blockMappingStart] ++ entry.first.tokens ++
    entry.others.flatMap Field.tokens := rfl
  have hemits {k : Nat} {opening : List Token} (hk : Closes e.indents k opening []) := by
    have hentry := step_entry hsound hloose hline hrest hallowed hk
      (entry.first.line ++ ('\n' :: (Field.lines entry.others ++ (es.flatMap Entry.text ++ []))))
    rw [← htext] at hentry
    exact Emits.step hentry rfl (hcontent.trans hentries)
  rw [hcount]
  rcases closes_of_sorted hsound.sorted with ⟨hzero,k,hk,hcloses⟩ | ⟨hzero,hcloses⟩
  · refine ⟨m',_,hemits hcloses,fun us => ?_⟩
    rw [entryTokens,if_pos hzero,← hk]
    simp [htokens,Entry.flatMap_blockEnd]
  · refine ⟨m',_,hemits hcloses,fun us => ?_⟩
    rw [entryTokens,if_neg hzero]
    simp [htokens,Entry.flatMap_blockEnd]

/-- A scan that is ready for entries at its end, where the entries stand. -/
lemma EndsAt.append_entries {g : List Char} {ts : List Token} {e : Scan} (h : EndsAt g ts e) {entry : Entry}
    {es : List Entry} {n : Nat} (hn : n ≤ g.length)
    (hsteps : Steps n (start ⟨g ++ (entry :: es).flatMap Entry.text,[]⟩) ts
      (e.append ((entry :: es).flatMap Entry.text)))
    (hline : EndsLine e.cursor.mark e.cursor.rest) (hallowed : e.toNext.keyAllowed = true) :
    (tokens ⟨g ++ (entry :: es).flatMap Entry.text,[]⟩).1 =
      entryTokens (ts ++ Held.tokens e.held) e.indents (entry :: es) := by
  obtain ⟨m,vs,hemits,htokens⟩ := emits_behind h.sound h.loose hline h.rest hallowed entry es
  have hcount : n+((entry :: es).map Entry.count).sum ≤ (g ++ (entry :: es).flatMap Entry.text).length := by
    rw [List.length_append]
    exact Nat.add_le_add hn (Entry.sum_count_le (entry :: es))
  obtain ⟨j,hj⟩ := Nat.exists_eq_add_of_le hcount
  rw [tokens,hj,Nat.add_assoc,run_of_emits (hsteps.emits.trans hemits),run_end (Nat.succ_pos j),← htokens ts]
  simp [List.replicate_succ]

/-- Entries behind a text whose last line is ended, and whose tokens come to the end of the stream and close all their
brackets: behind all tokens of the text, the entries go on with the list in the first column or begin one, unless
the last token of the text is a directive, or a plain scalar outside of all blocks, which takes in the first entry. -/
theorem tokens_append_entries {g : List Char} (hg : g = [] ∨ g.getLast? = some '\n')
    (hmem : Token.streamEnd ∈ (tokens ⟨g,[]⟩).1) (hlevel : nesting 0 (tokens ⟨g,[]⟩).1 = 0) (entry : Entry)
    (es : List Entry) :
    ∃ us is, (tokens ⟨g,[]⟩).1 = us ++ List.replicate is.length Token.blockEnd ++ [Token.streamEnd] ∧
      Token.streamEnd ∉ us ∧
      Source.isOpen ⟨g,[]⟩ = ((tokens ⟨g,[]⟩).1.all (· ≠ .documentEnd) &&
        (is.getLast? == some 0 || (tokens ⟨g,[]⟩).1.all isPrelude)) ∧
      ((tokens ⟨g ++ (entry :: es).flatMap Entry.text,[]⟩).1 = entryTokens us is (entry :: es) ∨
        (∃ t, us.getLast? = some t ∧ t.isDirective = true) ∨
        is = [] ∧ (∃ t, Token.scalar t true ∈ us) ∧
          Token.streamEnd ∉ (tokens ⟨g ++ (entry :: es).flatMap Entry.text,[]⟩).1) := by
  obtain ⟨ts,e,h⟩ := exists_endsAt hmem hlevel
  obtain ⟨n,hn,hsteps⟩ := h.steps
  obtain ⟨hts,-⟩ := hsteps.sound (Sound.of_start g)
  refine ⟨ts ++ Held.tokens e.held,e.indents,by rw [h.tokens_eq],?_,h.isOpen_eq,?_⟩
  · rw [List.mem_append,not_or]
    exact ⟨hts,h.sound.streamEnd⟩
  have hstart : EndsLine (start ⟨g,[]⟩).cursor.mark (start ⟨g,[]⟩).cursor.rest := hg.symm.imp_right fun hg => ⟨hg,rfl⟩
  have hready : Ready [] (start ⟨g,[]⟩) := fun _ => Or.inl rfl
  obtain ⟨hline,hready',happend⟩ := hsteps.append_hyphen (Sound.of_start g) hstart hready h.loose.level entry.first
    ('\n' :: (Field.lines entry.others ++ es.flatMap Entry.text))
  rw [← entry.text_append,← List.flatMap_cons,append_start] at happend
  rcases happend with happend | ⟨hindents,ht,hend⟩
  · have hallowed : e.toNext.keyAllowed = true ∨
        ∃ t, (ts ++ Held.tokens e.held).getLast? = some t ∧ t.isDirective = true := by
      obtain ⟨-,-,hnext⟩ := toNext_append_hyphen hline []
      rcases hnext h.rest h.loose.level with hallowed | ⟨hnil,hallowed⟩
      · exact Or.inl hallowed
      · rw [hallowed]
        exact hready' hnil
    rcases hallowed with hallowed | hdirective
    · exact Or.inl (h.append_entries hn happend hline hallowed)
    · exact Or.inr (Or.inl hdirective)
  · exact Or.inr (Or.inr ⟨hindents,ht,hend _⟩)

end Keyring.Yaml
