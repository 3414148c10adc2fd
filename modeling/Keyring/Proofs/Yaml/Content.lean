import Keyring.Proofs.Yaml.Parse

/-! The content of documents with other tokens behind it. Where the last step of the parser takes a token, what
follows it does not count. Where it takes the end of a list in the first column, entries may stand before that end. -/
namespace Keyring.Yaml

namespace Expected

variable {tags : Tags} {e f : Expected} {used us ts : List Token} {o : Option Token} {as : List Anchored}
  {more es es' : List Expected} {n : Nat}

lemma Props.ne_nil {a t : Option (List Char)} (h : Props tags used o a t) (hsome : a.isSome ∨ t.isSome) :
    used ≠ [] := by
  cases h with
  | none => simp at hsome
  | _ => exact List.cons_ne_nil _ _

/-- Behind an anchor and a tag, a token that is neither may be any other such token. -/
lemma Props.of_other {a t : Option (List Char)} (h : Props tags used o a t) {p : Token}
    (hanchor : ∀ name, p ≠ .anchor name)
    (htag : ∀ handle suffix, p ≠ .tag handle suffix) : Props tags used (some p) a t := by
  cases h with
  | anchorTag a _ ht => exact .anchorTag a _ ht
  | tagAnchor a _ ht => exact .tagAnchor a _ ht
  | anchor a => exact .anchor a fun h s hp => htag h s (Option.some.inj hp)
  | tag _ ht => exact .tag (fun a hp => hanchor a (Option.some.inj hp)) ht
  | none => exact .none (fun a hp => hanchor a (Option.some.inj hp)) fun h s hp => htag h s (Option.some.inj hp)

lemma Props.isPrelude_of_mem {a t : Option (List Char)} (h : Props tags used o a t) {p : Token} (hp : p ∈ used) :
    isPrelude p = true :=
  h.forall_mem (P := fun p => isPrelude p = true) (fun _ => rfl) (fun _ _ => rfl) p hp

/-- A rule that ends what was expected, at the end of the stream, takes a token. What follows does not count, unless a
node is left out. -/
lemma Rule.of_streamEnd (h : Rule tags e used (some .streamEnd) as []) (he : e.isIndentless = false) : used ≠ [] ∧
    ((e.isNode = true ∧ ∃ a t, Props tags used (some .streamEnd) a t ∧ as = [⟨a,.scalar t [] true⟩]) ∨
      (∃ p ∈ used, isPrelude p = false) ∧ ∀ o, Rule tags e used o as []) := by
  cases h with
  | reference b i name => exact ⟨List.cons_ne_nil _ _,Or.inr ⟨⟨_,List.mem_cons_self,rfl⟩,.reference b i name⟩⟩
  | @scalar ps a t text plain b i _ hps =>
    exact ⟨by simp,Or.inr ⟨⟨.scalar text plain,by simp,rfl⟩,fun o => .scalar b i o hps⟩⟩
  | omitted hps hsome => exact ⟨hps.ne_nil hsome,Or.inl ⟨rfl,_,_,hps,rfl⟩⟩
  | close _ hclose =>
    have hfirst : ∃ p r, used = p :: r ∧ isPrelude p = false := by cases hclose <;> exact ⟨_,_,rfl,rfl⟩
    obtain ⟨p,r,rfl,hp⟩ := hfirst
    exact ⟨List.cons_ne_nil p r,Or.inr ⟨⟨p,List.mem_cons_self,hp⟩,fun o => .close o hclose⟩⟩
  | indentlessEnd => cases he

/-- Where the end of a block is seen behind a rule that leads to the entries of a list, an entry may stand instead. -/
lemma Rule.of_blockEnd (h : Rule tags e used (some .blockEnd) as more) (he : e.isIndentless = false)
    (hmore : more = [] ∨ more = [blockSequence]) : used ≠ [] ∧ Rule tags e used (some .blockEntry) as more := by
  cases h with
  | reference b i name => exact ⟨List.cons_ne_nil _ _,.reference b i name _⟩
  | scalar b i _ hps => exact ⟨by simp,.scalar b i _ hps⟩
  | opens i _ hps hopens => exact ⟨by simp,.opens i _ hps hopens⟩
  | @omitted ps a t o block indentless hps hsome hscalar hopens hentry =>
    have hps' : Props tags used (some .blockEntry) a t := hps.of_other (by simp) (by simp)
    have hopens' : opening? block .blockEntry = none := rfl
    refine ⟨hps.ne_nil hsome,.omitted hps' hsome (fun _ _ => Token.noConfusion) hopens' fun h => ?_⟩
    rw [h.1] at he
    cases he
  | absent hm hmem =>
    cases hm with
    | blockSequence => exact ⟨List.cons_ne_nil _ _,.absent .blockSequence (by simp)⟩
    | indentlessSequence => cases he
    | _ => simp at hmore hmem
  | close _ hclose =>
    refine ⟨?_,.close _ hclose⟩
    cases hclose <;> exact List.cons_ne_nil _ _
  | indentlessEnd => cases he
  | _ => simp at hmore

/-- A rule that takes the end of a block last, and ends what was expected. -/
lemma Rule.of_close (h : Rule tags e used o as []) (hlast : used.getLast? = some .blockEnd) : used = [.blockEnd] ∧
    (e = blockSequence ∧ as = [⟨none,.sequenceEnd⟩] ∨ e = blockKey ∧ as = [⟨none,.mappingEnd⟩]) := by
  cases h with
  | reference => cases hlast
  | scalar => simp at hlast
  | omitted hps => cases hps <;> cases hlast
  | close _ hclose =>
    cases hclose with
    | blockSequence => exact ⟨rfl,Or.inl ⟨rfl,rfl⟩⟩
    | blockMapping => exact ⟨rfl,Or.inr ⟨rfl,rfl⟩⟩
    | _ => cases hlast
  | indentlessEnd => cases hlast

/-- The first event of a node whose collection is not ended yet. -/
lemma Yields.root (h : Yields tags n [node true false] ts as es' us) (hlast : es'.getLast? = some f)
    (hf : f.isNode = false) : ∃ a ev bs,
    as = ⟨a,ev⟩ :: bs ∧ (ev = .sequenceStart ∧ f.isMapping = false ∨ ev = .mappingStart ∧ f.isMapping = true) := by
  have hended {us' : List Token} {bs : List Anchored} {m : Nat} (hrest : Yields tags m [] us' bs es' us) : False := by
    cases hrest
    cases hlast
  cases h with
  | refl =>
    cases hlast
    cases hf
  | @step _ _ _ more _ _ _ _ as₁ bs hstep hrest =>
    obtain ⟨used,-,hrule⟩ := rule_of_step hstep
    generalize List.head? _ = o at hrule
    cases hrule with
    | @opens ps a t p ev next block _ o hps hopens =>
      have hnext : next.isNode = false := by cases p <;> cases hopens <;> rfl
      have hmapping : f.isMapping = next.isMapping := (hrest.isMapping_eq rfl hnext hlast).2
      refine ⟨a,ev,bs,rfl,?_⟩
      rw [hmapping]
      cases p <;> cases hopens <;> simp [isMapping]
    | reference => exact (hended hrest).elim
    | scalar => exact (hended hrest).elim
    | omitted => exact (hended hrest).elim
    | absent hm => cases hm
    | present hm => cases hm
    | close o hclose => cases hclose

lemma Yields.eq_of_zero (h : Yields tags 0 es ts as es' us) : as = [] ∧ es = es' ∧ ts = us := by
  cases h
  exact ⟨rfl,rfl,rfl⟩

/-- The events of a run of few enough steps. -/
lemma Yields.events_eq (h : Yields tags n [node true false] ts as [] us) (hn : n ≤ 8*ts.length+8) :
    events tags ts = (as,some us) := by
  obtain ⟨k,hk⟩ := Nat.exists_eq_add_of_le hn
  rw [events,hk,run_of_yields h,run_nil,List.append_nil]

/-- The events of a node that ends with the stream. They are the same if other tokens follow, unless the node is left
out. -/
lemma events_append (h : events tags (ts ++ [Token.streamEnd]) = (as,some [.streamEnd])) :
    (∃ a t, Props tags ts (some .streamEnd) a t ∧ as = [⟨a,.scalar t [] true⟩]) ∨
      (∃ p ∈ ts, isPrelude p = false) ∧ ∀ r, r ≠ [] → events tags (ts ++ r) = (as,some r) := by
  obtain ⟨n,hn,hyields⟩ := exists_yields h
  obtain ⟨n,rfl⟩ : ∃ m, n = m+1 := Nat.exists_eq_succ_of_ne_zero fun h => by
    subst h
    cases hyields
  obtain ⟨e,rest,more,used,as₁,as₂,hfirst,hrule,hnil,rfl⟩ := hyields.exists_last
  obtain ⟨rfl,rfl⟩ := List.append_eq_nil_iff.mp hnil.symm
  have hstacked := hfirst.stacked_of_node
  obtain ⟨used₀,hused₀,-,-,happend⟩ := hfirst.exists_used
  rw [← List.append_assoc] at hused₀
  obtain ⟨rfl,-⟩ := List.append_inj' hused₀ rfl
  obtain ⟨hne,⟨hnode,a,t,hprops,rfl⟩ | ⟨⟨p,hp,hprelude⟩,hall⟩⟩ := hrule.of_streamEnd hstacked
  · refine Or.inl ⟨a,t,?_⟩
    cases n with
    | zero =>
      obtain ⟨rfl,-,hts⟩ := hfirst.eq_of_zero
      obtain rfl : used₀ = [] := by simpa using hts
      exact ⟨hprops,rfl⟩
    | succ n =>
      obtain ⟨e',rest,more,used',bs₁,bs₂,hbefore,hrule',hmore,-⟩ := hfirst.exists_last
      have hnode' := hrule'.isNode_eq_false hbefore.stacked_of_node hmore.symm
      rw [hnode'] at hnode
      cases hnode
  · refine Or.inr ⟨⟨p,List.mem_append_right _ hp,hprelude⟩,fun r hr => Yields.events_eq (n := n+1) ?_ ?_⟩
    · have hhead : (used ++ r).head? = (used ++ [Token.streamEnd]).head? := by
        rw [List.head?_append_of_ne_nil _ hne,List.head?_append_of_ne_nil _ hne]
      have hlast := Yields.single tags e [] (used ++ r) (step_of_rule (hall r.head?))
      rw [List.append_assoc]
      exact (happend (used ++ r) hhead).trans hlast
    · have hlength : 0 < r.length := List.length_pos_iff.mpr hr
      simp only [List.length_append,List.length_cons,List.length_nil] at hn ⊢
      omega

/-- A list of entries behind its anchor and tag. -/
lemma events_list_of_props {a t : Option (List Char)} (h : Props tags ts (some .blockSequenceStart) a t)
    (es : List Entry) (r : List Token) :
    events tags (ts ++ Token.blockSequenceStart :: es.flatMap (fun e => e.tokens ++ [Token.blockEnd]) ++
      Token.blockEnd :: r) =
      (⟨a,.sequenceStart⟩ :: (es.flatMap Entry.events).map .bare ++ [⟨none,.sequenceEnd⟩],some r) := by
  generalize hinner : es.flatMap (fun e => e.tokens ++ [Token.blockEnd]) = inner
  have hstart := Yields.single tags (.node true false) []
    (ts ++ [Token.blockSequenceStart] ++ (inner ++ Token.blockEnd :: r))
    (step_of_rule (.opens false _ h rfl))
  have hentries := yields_entries tags es [] (.blockEnd :: r)
  have hend := Yields.single tags .blockSequence [] (.blockEnd :: r) rfl
  rw [hinner] at hentries
  have hall := hstart.trans (hentries.trans hend)
  have hts : ts ++ [Token.blockSequenceStart] ++ (inner ++ Token.blockEnd :: r) =
      ts ++ Token.blockSequenceStart :: inner ++ Token.blockEnd :: r := by simp
  rw [hts] at hall
  refine (Yields.events_eq hall ?_).trans (by simp)
  simp only [List.length_append,List.length_cons]
  omega

/-- Where the list in the first column ends, an entry may go on with it instead. -/
lemma Yields.of_blockEnd
    (h : Yields tags n [node true false] (ts ++ Token.blockEnd :: us) as [blockSequence] (.blockEnd :: us))
    (r : List Token) :
    Yields tags n [node true false] (ts ++ Token.blockEntry :: r) as [blockSequence] (.blockEntry :: r) := by
  cases n with
  | zero => cases h.eq_of_zero.2.1
  | succ n =>
    obtain ⟨e,rest,more,used,as₁,as₂,hfirst,hrule,hmore,rfl⟩ := h.exists_last
    have hstacked := hfirst.stacked_of_node
    have he : e.isIndentless = false ∧ (more = [] ∨ more = [blockSequence]) := by
      rcases List.append_eq_singleton_iff.mp hmore.symm with ⟨rfl,rfl⟩ | ⟨rfl,rfl⟩
      · refine ⟨?_,Or.inl rfl⟩
        cases hi : e.isIndentless with
        | false => rfl
        | true => rcases hstacked.2.1 hi with h | h <;> cases h
      · exact ⟨hstacked,Or.inr rfl⟩
    obtain ⟨hne,hrule'⟩ := hrule.of_blockEnd he.1 he.2
    obtain ⟨used₀,hused₀,-,-,happend⟩ := hfirst.exists_used
    rw [← List.append_assoc] at hused₀
    obtain rfl := List.append_cancel_right hused₀
    have hhead : (used ++ Token.blockEntry :: r).head? = (used ++ Token.blockEnd :: us).head? := by
      rw [List.head?_append_of_ne_nil _ hne,List.head?_append_of_ne_nil _ hne]
    have hlast := Yields.single tags e rest (used ++ Token.blockEntry :: r) (step_of_rule hrule')
    rw [hmore,List.append_assoc]
    exact (happend _ hhead).trans hlast

/-- The events of a block list or mapping that ends with the stream. Further entries in the first column go on with
the list. -/
lemma events_entries_append (h : events tags (ts ++ [Token.blockEnd,.streamEnd]) = (as,some [.streamEnd])) :
    (∃ a bs, as = ⟨a,.mappingStart⟩ :: bs) ∨ ∃ a bs, as = ⟨a,.sequenceStart⟩ :: bs ++ [⟨none,.sequenceEnd⟩] ∧
      ∀ (es : List Entry) (r : List Token), es ≠ [] →
        events tags (ts ++ es.flatMap (fun e => e.tokens ++ [Token.blockEnd]) ++ Token.blockEnd :: r) =
          (⟨a,.sequenceStart⟩ :: bs ++ (es.flatMap Entry.events).map .bare ++ [⟨none,.sequenceEnd⟩],some r) := by
  obtain ⟨n,hn,hyields⟩ := exists_yields h
  obtain ⟨n,rfl⟩ : ∃ m, n = m+1 := Nat.exists_eq_succ_of_ne_zero fun h => by
    subst h
    cases hyields
  obtain ⟨e,rest,more,used,as₁,as₂,hfirst,hrule,hnil,rfl⟩ := hyields.exists_last
  obtain ⟨rfl,rfl⟩ := List.append_eq_nil_iff.mp hnil.symm
  have hstacked := hfirst.stacked_of_node
  obtain ⟨hne,-⟩ := hrule.of_streamEnd hstacked
  obtain ⟨used₀,hused₀,-⟩ := hfirst.exists_used
  have hsplit : ts ++ [.blockEnd] = used₀ ++ used := by
    have hcancel : ts ++ [.blockEnd] ++ [Token.streamEnd] = used₀ ++ used ++ [Token.streamEnd] := by simpa using hused₀
    exact List.append_cancel_right hcancel
  have hlast : used.getLast? = some .blockEnd := by
    rw [← List.getLast?_append_of_ne_nil used₀ hne,← hsplit,List.getLast?_concat]
  obtain ⟨rfl,hclose⟩ := hrule.of_close hlast
  obtain rfl := List.append_cancel_right hsplit
  have hnode : e.isNode = false := by rcases hclose with ⟨rfl,-⟩ | ⟨rfl,-⟩ <;> rfl
  obtain ⟨a,ev,bs,rfl,hev⟩ := hfirst.root rfl hnode
  rcases hclose with ⟨rfl,rfl⟩ | ⟨rfl,rfl⟩
  · obtain rfl : ev = .sequenceStart := (hev.resolve_right fun h => by cases h.2).1
    refine Or.inr ⟨a,bs,rfl,fun es r hes => ?_⟩
    obtain ⟨entry,es,rfl⟩ := List.exists_cons_of_ne_nil hes
    generalize hentries : entry :: es = entries
    obtain ⟨inner,hinner⟩ : ∃ inner, entries.flatMap (fun e => e.tokens ++ [Token.blockEnd]) =
        .blockEntry :: .blockMappingStart :: inner := by
      subst hentries
      exact ⟨_,rfl⟩
    have hbefore := hfirst.of_blockEnd (.blockMappingStart :: inner ++ Token.blockEnd :: r)
    have hthere := yields_entries tags entries [] (.blockEnd :: r)
    have hend := Yields.single tags .blockSequence [] (.blockEnd :: r) rfl
    rw [hinner] at hthere ⊢
    have hall := hbefore.trans (hthere.trans hend)
    rw [← List.cons_append,← List.append_assoc] at hall
    refine (Yields.events_eq hall ?_).trans ?_
    · simp only [List.length_append,List.length_cons,List.length_nil] at hn ⊢
      omega
    · simp
  · obtain rfl : ev = .mappingStart := (hev.resolve_left fun h => by cases h.2).1
    exact Or.inl ⟨a,_,rfl⟩

end Expected
end Keyring.Yaml
