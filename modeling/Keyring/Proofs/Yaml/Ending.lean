import Keyring.Proofs.Yaml.Frames

/-! Parses of documents that end with an entry. -/
namespace Keyring.Yaml.Expected

variable {tags : Tags} {e f : Expected} {used us ts : List Token} {o : Option Token} {as bs : List Anchored}
  {more es es' : List Expected} {n m : Nat}

/-- Runs go on where others with fewer steps end. -/
lemma Yields.unique (h : Yields tags n es ts as es' us) {vs : List Token}
    (h' : Yields tags m es ts bs [] vs) : ∃ k cs, Yields tags k es' us cs [] vs ∧ bs = as ++ cs := by
  induction h generalizing m bs with
  | refl => exact ⟨m,bs,h',rfl⟩
  | step hstep _ ih =>
    cases h' with
    | step hstep' hrest' =>
      rw [hstep] at hstep'
      cases hstep'
      obtain ⟨k,cs,hk,rfl⟩ := ih hrest'
      exact ⟨k,cs,hk,by rw [List.append_assoc]⟩

/-- The step of a run that takes a token which is not left at the end. -/
lemma Yields.exists_taking {p : Token} {r : List Token} (h : Yields tags n es (ts ++ p :: r) as es' us)
    (hlength : us.length ≤ r.length) : ∃ n₁ n₂ e rest more u v w as₁ as₂ as₃, r = v ++ w ∧
      Yields tags n₁ es (ts ++ p :: r) as₁ (e :: rest) (u ++ p :: r) ∧ Rule tags e (u ++ p :: v) w.head? as₂ more ∧
      Yields tags n₂ (more ++ rest) w as₃ es' us ∧ as = as₁ ++ (as₂ ++ as₃) := by
  generalize htokens : ts ++ p :: r = tokens at *
  induction h generalizing ts with
  | refl =>
    subst htokens
    simp at hlength
    omega
  | @step n e es more es' tokens us ts' as bs hstep hrest ih =>
    obtain ⟨used,rfl,hrule⟩ := rule_of_step hstep
    rcases List.append_eq_append_iff.mp htokens with ⟨v,hv,hr⟩ | ⟨v,rfl,hr⟩
    · cases v with
      | nil =>
        rw [List.append_nil] at hv
        subst hv
        obtain ⟨n₁,n₂,e',rest,more',u,v,w,as₁,as₂,as₃,hr',hyields,htaking⟩ :=
          ih hlength (show [] ++ p :: r = us from hr)
        exact ⟨n₁+1,n₂,e',rest,more',u,v,w,as ++ as₁,as₂,as₃,hr',.step hstep hyields,htaking.1,htaking.2.1,
          by rw [htaking.2.2,List.append_assoc]⟩
      | cons d v =>
        obtain ⟨rfl,rfl⟩ := List.cons.inj hr
        subst hv
        exact ⟨0,n,e,es,more,ts,v,us,[],as,bs,rfl,by rw [htokens]; exact .refl _ _,hrule,hrest,rfl⟩
    · obtain ⟨n₁,n₂,e',rest,more',u,v',w,as₁,as₂,as₃,hr',hyields,htaking⟩ := ih hlength hr.symm
      exact ⟨n₁+1,n₂,e',rest,more',u,v',w,as ++ as₁,as₂,as₃,hr',.step hstep hyields,htaking.1,htaking.2.1,
          by rw [htaking.2.2,List.append_assoc]⟩

/-- Whether this is expected right behind a node. -/
def isBehindNode : Expected → Bool
  | node _ _ => false
  | pairKey => false
  | flowSequence true => false
  | flowKey true => false
  | _ => true

lemma Rule.isBehindNode_of_mem (h : Rule tags e used o as more) : ∀ f ∈ more.tail, f.isBehindNode = true := by
  have hmarker {e as next : Expected} {ms ends : List Token} (h : Marker e ms ends as next) :
      next.isBehindNode = true := by
    cases h <;> rfl
  cases h with
  | present hm => simpa using hmarker hm
  | _ => simp [isBehindNode]

lemma Yields.isBehindNode_of_mem (h : Yields tags n es ts as es' us) (hes : ∀ f ∈ es.tail, f.isBehindNode = true) :
    ∀ f ∈ es'.tail, f.isBehindNode = true := by
  induction h with
  | refl => exact hes
  | @step n e es more es' ts us ts' as bs hstep _ ih =>
    obtain ⟨used,-,hrule⟩ := rule_of_step hstep
    refine ih fun f hf => ?_
    cases more with
    | nil => exact hes f (List.mem_of_mem_tail hf)
    | cons d more =>
      rcases List.mem_append.mp hf with hf | hf
      · exact hrule.isBehindNode_of_mem f hf
      · exact hes f hf

/-- Behind a node, the ends of blocks may be taken, but no scalar behind them. -/
lemma step_before_scalar (he : e.isBehindNode = true) {k : Nat} {t : List Char} {plain : Bool} {r : List Token}
    (h : step tags e (List.replicate k .blockEnd ++ Token.scalar t plain :: r) = some (as,more,us)) :
    (∃ j, us = List.replicate j .blockEnd ++ Token.scalar t plain :: r) ∧ ∀ f ∈ more, f.isBehindNode = true := by
  -- The step takes one end of a block, or nothing.
  have hsame : ∃ j, List.replicate k .blockEnd ++ Token.scalar t plain :: r =
      List.replicate j .blockEnd ++ Token.scalar t plain :: r := ⟨k,rfl⟩
  cases e with
  | blockSequence | blockKey =>
    cases k with
    | zero => cases h
    | succ k =>
      cases h
      exact ⟨⟨k,rfl⟩,by simp⟩
  | indentlessSequence => cases k <;> cases h <;> exact ⟨hsame,by simp⟩
  | blockValue | pairValue | pairEnd => cases k <;> cases h <;> exact ⟨hsame,by simp [isBehindNode]⟩
  | flowValue omitted =>
    cases k <;> cases omitted <;> cases h <;> exact ⟨hsame,by simp [isBehindNode]⟩
  | flowSequence first => cases k <;> cases first <;> simp [step,isBehindNode,List.replicate_succ] at h he
  | flowKey first => cases k <;> cases first <;> simp [step,isBehindNode,List.replicate_succ] at h he
  | node | pairKey => simp [isBehindNode] at he

lemma Yields.before_scalar {k : Nat} {t : List Char} {plain : Bool} {r : List Token}
    (h : Yields tags n es (List.replicate k .blockEnd ++ Token.scalar t plain :: r) as es' us)
    (hes : ∀ f ∈ es, f.isBehindNode = true) : Token.scalar t plain ∈ us := by
  generalize hts : List.replicate k .blockEnd ++ Token.scalar t plain :: r = ts at h
  induction h generalizing k with
  | refl =>
    subst hts
    simp
  | @step n e es more es' ts us ts' as bs hstep _ ih =>
    subst hts
    obtain ⟨⟨j,rfl⟩,hmore⟩ := step_before_scalar (hes e List.mem_cons_self) hstep
    refine ih (fun f hf => ?_) rfl
    rcases List.mem_append.mp hf with hf | hf
    · exact hmore f hf
    · exact hes f (List.mem_cons_of_mem e hf)

lemma Props.notMem {a t : Option (List Char)} (h : Props tags used o a t) {p : Token} (hp : isPrelude p = false) :
    p ∉ used := fun hmem => by
  rw [h.isPrelude_of_mem hmem] at hp
  cases hp

/-- A scalar is taken as the last token of a node. -/
lemma Rule.of_scalar {u v : List Token} {t : List Char} {plain : Bool}
    (h : Rule tags e (u ++ Token.scalar t plain :: v) o as more) : v = [] ∧ more = [] := by
  have hmem : Token.scalar t plain ∈ u ++ Token.scalar t plain :: v := by simp
  have hmarker {e as next : Expected} {ms ends : List Token} (h : Marker e ms ends as next) :
      Token.scalar t plain ∉ ms := by
    cases h with
    | flowKey first => cases first <;> simp [separator]
    | _ => simp
  generalize hused : u ++ Token.scalar t plain :: v = used at *
  cases h with
  | reference => simp at hmem
  | indentless _ hps => exact absurd hmem (hps.notMem rfl)
  | @scalar ps a t' text plain' _ _ _ hps =>
    refine ⟨?_,rfl⟩
    rcases List.eq_nil_or_concat v with rfl | ⟨v,d,rfl⟩
    · rfl
    · rw [List.concat_eq_append,← List.cons_append,← List.append_assoc] at hused
      obtain ⟨hfront,-⟩ := List.append_inj' hused rfl
      exact absurd (hfront ▸ (by simp : Token.scalar t plain ∈ u ++ Token.scalar t plain :: v))
        (hps.notMem rfl)
  | @opens ps a t' p ev next block _ _ hps hopens =>
    rcases List.mem_append.mp hmem with hmem | hmem
    · exact absurd hmem (hps.notMem rfl)
    · obtain rfl := List.mem_singleton.mp hmem
      cases hopens
  | omitted hps => exact absurd hmem (hps.notMem rfl)
  | absent hm => exact absurd hmem (hmarker hm)
  | present hm => exact absurd hmem (hmarker hm)
  | close _ hclose => cases hclose <;> simp at hmem
  | pair first => cases first <;> simp [separator] at hmem
  | item first => cases first <;> simp [separator] at hmem
  | pairKeyOmitted _ hp =>
    obtain rfl := List.mem_singleton.mp hmem
    simp at hp
  | flowKey first => cases first <;> simp [separator] at hmem
  | _ => simp at hmem

/-- A node is not made of tokens with two scalars that have only the ends of blocks between them. -/
lemma Yields.not_neighbours {k : Nat} {t t' : List Char} {plain plain' : Bool} {r : List Token}
    (h : Yields tags n [node true false] (ts ++ Token.scalar t plain :: (List.replicate k .blockEnd ++
      Token.scalar t' plain' :: r)) as [] us) : Token.scalar t' plain' ∈ us := by
  obtain ⟨used,hused,-⟩ := h.exists_used
  rw [← List.cons_append,← List.append_assoc] at hused
  rcases List.append_eq_append_iff.mp hused with ⟨v,-,hv⟩ | ⟨v,-,rfl⟩
  · cases v with
    | nil =>
      rw [List.nil_append] at hv
      exact hv ▸ List.mem_cons_self
    | cons d v =>
      obtain ⟨-,hr⟩ := List.cons.inj hv
      have hlength : us.length ≤ r.length := by simp [hr]
      obtain ⟨n₁,n₂,e,rest,more,u,v,w,as₁,as₂,as₃,hr',hyields,hrule,hrest,-⟩ := h.exists_taking (by simp; omega)
      obtain ⟨rfl,rfl⟩ := hrule.of_scalar
      have hbehind := hyields.isBehindNode_of_mem (by simp)
      rw [List.nil_append] at hr' hrest
      rw [← hr'] at hrest
      exact hrest.before_scalar hbehind
  · simp

/-- A hyphen is taken alone. -/
lemma Rule.eq_of_blockEntry (h : Rule tags e used o as more) (hmem : .blockEntry ∈ used) : used = [.blockEntry] := by
  have hmarker {e as next : Expected} {ms ends : List Token} (h : Marker e ms ends as next)
      (hmem : .blockEntry ∈ ms) : ms = [.blockEntry] := by
    cases h with
    | blockSequence => rfl
    | indentlessSequence => rfl
    | flowKey first => cases first <;> simp [separator] at hmem
    | _ => simp at hmem
  cases h with
  | indentless _ hps => exact absurd hmem (hps.notMem rfl)
  | scalar _ _ _ hps => simp [hps.notMem (p := .blockEntry) rfl] at hmem
  | @opens ps a t p _ _ _ _ _ hps hopens =>
    obtain rfl : p = .blockEntry := by simpa [hps.notMem (p := .blockEntry) rfl,eq_comm] using hmem
    cases hopens
  | omitted hps => exact absurd hmem (hps.notMem rfl)
  | absent hm => exact hmarker hm hmem
  | present hm => exact hmarker hm hmem
  | close _ hclose => cases hclose <;> simp at hmem
  | pair first => cases first <;> simp [separator] at hmem
  | item first => cases first <;> simp [separator] at hmem
  | pairKeyOmitted _ hp =>
    obtain rfl := List.mem_singleton.mp hmem
    simp at hp
  | flowKey first => cases first <;> simp [separator] at hmem
  | _ => simp at hmem

/-- A hyphen before a mapping is taken in a list. -/
lemma Rule.of_blockEntry (h : Rule tags e [.blockEntry] (some .blockMappingStart) as more) :
    (e = blockSequence ∨ e = indentlessSequence) ∧ as = [] ∧ more = [node true false,e] := by
  generalize hused : [Token.blockEntry] = used at h
  generalize ho : some Token.blockMappingStart = o at h
  cases h with
  | indentless => cases ho
  | scalar _ _ _ hps => cases hps <;> cases hused
  | opens _ _ hps hopens =>
    cases hps with
    | none =>
      cases hused
      cases hopens
    | _ => cases hused
  | omitted hps => cases hps <;> cases hused
  | absent hm hmem =>
    cases ho
    cases hm <;> simp at hmem
  | present hm =>
    cases hm with
    | blockSequence => exact ⟨.inl rfl,rfl,rfl⟩
    | indentlessSequence => exact ⟨.inr rfl,rfl,rfl⟩
    | flowKey first => cases first <;> cases hused
    | _ => cases hused
  | close _ hclose => cases hclose <;> cases hused
  | pair first => cases first <;> cases hused
  | item first => cases first <;> cases hused
  | pairKeyOmitted _ hp =>
    cases hused
    simp at hp
  | flowKey first => cases first <;> cases hused
  | _ => cases hused

/-- At the end of the stream nothing more can be ended. -/
lemma Yields.eq_nil_of_streamEnd (h : Yields tags n es [.streamEnd] as [] [.streamEnd]) (hs : Stacked es) :
    es = [] ∧ as = [] := by
  cases n with
  | zero =>
    obtain ⟨rfl,rfl,-⟩ := h.eq_of_zero
    exact ⟨rfl,rfl⟩
  | succ n =>
    exfalso
    obtain ⟨e,rest,more,used,as₁,as₂,hfirst,hrule,hnil,-⟩ := h.exists_last
    obtain ⟨rfl,rfl⟩ := List.append_eq_nil_iff.mp hnil.symm
    have hlength := hfirst.length_le
    obtain ⟨hne,-⟩ := hrule.of_streamEnd (hfirst.stacked hs)
    have := List.length_pos_iff.mpr hne
    rw [List.length_append,List.length_singleton] at hlength
    omega

/-- What may be expected behind the last entry of a document. -/
lemma Yields.behind_entry (h : Yields tags n (e :: es) [.blockEnd,.streamEnd] as [] [.streamEnd])
    (he : e = blockSequence ∨ e = indentlessSequence) (hs : Stacked (e :: es)) :
    (e = blockSequence ∧ es = [] ∧ as = [⟨none,.sequenceEnd⟩]) ∨
      ∃ f, es = [f] ∧ f.isNode = false ∧ f.isMapping = true := by
  have hend {n : Nat} {es : List Expected} {as : List Anchored} (hs : Stacked (blockKey :: es))
      (h : Yields tags n (blockKey :: es) [.blockEnd,.streamEnd] as [] [.streamEnd]) : es = [] := by
    cases h with
    | step hstep hrest =>
      cases hstep
      exact (hrest.eq_nil_of_streamEnd hs.tail).1
  rcases he with rfl | rfl
  · cases h with
    | step hstep hrest =>
      cases hstep
      obtain ⟨hnil,rfl⟩ := hrest.eq_nil_of_streamEnd hs.tail
      exact .inl ⟨rfl,hnil,rfl⟩
  · cases es with
    | nil => cases hs
    | cons e' es =>
      cases h with
      | step hstep hrest =>
        cases hstep
        rcases hs.2.1 rfl with rfl | rfl
        · exact .inr ⟨blockKey,by rw [hend hs.tail hrest],rfl,rfl⟩
        · cases hrest with
          | step hstep' hrest' =>
            cases hstep'
            have hs' : Stacked (blockKey :: es) := by
              cases es with
              | nil => rfl
              | cons e'' es => exact ⟨hs.tail.1,nofun,hs.tail.2.2⟩
            exact .inr ⟨blockValue,by rw [hend hs' hrest'],rfl,rfl⟩

/-- A document that ends with an entry is a mapping, or a list with the entry's node as its last one. -/
lemma Yields.of_entry {entry : Entry}
    (h : Yields tags n [node true false] (ts ++ (entry.tokens ++ [Token.blockEnd,.blockEnd,.streamEnd])) as []
      [.streamEnd]) : (∃ a bs, as = ⟨a,.mappingStart⟩ :: bs) ∨ ∃ a bs,
        as = ⟨a,.sequenceStart⟩ :: bs ++ (entry.events.map .bare ++ [⟨none,.sequenceEnd⟩]) ∧
          nestAll [.list] (shapes bs) = some [.list] := by
  generalize hr : entry.tokens.tail ++ [Token.blockEnd,.blockEnd,.streamEnd] = r
  have htokens : entry.tokens ++ [Token.blockEnd,.blockEnd,.streamEnd] = .blockEntry :: r := by
    rw [← hr]
    rfl
  obtain ⟨us,hus⟩ : ∃ us, r = .blockMappingStart :: us := ⟨_,hr.symm⟩
  rw [htokens] at h
  obtain ⟨n₁,n₂,e,rest,more,u,v,w,as₁,as₂,as₃,rfl,hfirst,hrule,hrest,rfl⟩ := h.exists_taking (by simp [hus])
  have hused := hrule.eq_of_blockEntry (by simp)
  obtain ⟨rfl,rfl⟩ : u = [] ∧ v = [] := by
    cases u with
    | nil => exact ⟨rfl,(List.cons.inj hused).2⟩
    | cons p u => cases u <;> cases hused
  simp only [List.nil_append] at hus hr hfirst hrule
  rw [hus] at hrule
  obtain ⟨he,rfl,rfl⟩ := hrule.of_blockEntry
  rw [← hr] at hrest
  obtain ⟨k,cs,hbehind,rfl⟩ := (yields_mapping tags entry (e :: rest) [.blockEnd,.streamEnd]).unique hrest
  rcases hbehind.behind_entry he hfirst.stacked_of_node with ⟨rfl,rfl,rfl⟩ | ⟨f,rfl,hnode,hmapping⟩
  · obtain ⟨a,ev,bs,rfl,hev⟩ := hfirst.root rfl rfl
    obtain rfl : ev = .sequenceStart := (hev.resolve_right fun h => by cases h.2).1
    exact .inr ⟨a,bs,by simp,hfirst.nestAll_of_list⟩
  · obtain ⟨a,ev,bs,rfl,hev⟩ := hfirst.root rfl hnode
    obtain rfl : ev = .mappingStart := (hev.resolve_left fun h => Bool.false_ne_true (h.2.symm.trans hmapping)).1
    exact .inl ⟨a,_,rfl⟩

end Keyring.Yaml.Expected
