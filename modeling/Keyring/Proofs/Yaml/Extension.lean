import Keyring.Proofs.Yaml.Reading

/-! Documents whose text goes on with entries. -/
namespace Keyring.Yaml

/-- An event is resolved by what stands before it. An alias of an unknown name is the last thing seen. -/
lemma resolve_cons (a : Anchored) (names : List (List Char × Nat)) (places : List (Nat × Nat)) (position : Nat) :
    (∃ (e : Event Nat) (names' : List (List Char × Nat)) (places' : List (Nat × Nat)), e.named = a.event.named ∧
      ∀ as, resolve names places position (a :: as) =
        (e :: (resolve names' places' (position+1) as).1,(resolve names' places' (position+1) as).2)) ∨
      ∃ places', ∀ as, resolve names places position (a :: as) = ([],places',false) := by
  obtain ⟨anchor,e⟩ := a
  rcases e with t | ⟨tag,t,p⟩ | _ | _ | _ | _
  · cases anchor with
    | none =>
      cases h : names.lookup t with
      | none => exact Or.inr ⟨_,fun as => by simp only [resolve,h]; rfl⟩
      | some n => exact Or.inl ⟨.alias n,_,_,rfl,fun as => by simp only [resolve,h]; rfl⟩
    | some name =>
      cases h : ((name,names.length) :: names.filter (·.1 ≠ name)).lookup t with
      | none => exact Or.inr ⟨_,fun as => by simp only [resolve,h]; rfl⟩
      | some n => exact Or.inl ⟨.alias n,_,_,rfl,fun as => by simp only [resolve,h]; rfl⟩
  all_goals cases anchor <;> exact Or.inl ⟨_,_,_,rfl,fun as => rfl⟩

/-- Events without anchors and aliases behind others leave the names and places as they are. -/
lemma resolve_append {bs : List (Event (List Char))} (hbs : ∀ e ∈ bs, e.isAlias = false) (as : List Anchored)
    (names : List (List Char × Nat)) (places : List (Nat × Nat)) (position : Nat) :
    resolve names places position (as ++ bs.map .bare) =
      ((resolve names places position as).1 ++
          (if (resolve names places position as).2.2 then bs.map Event.named else []),
        (resolve names places position as).2) := by
  induction as generalizing names places position with
  | nil =>
    rw [List.nil_append,resolve_bare hbs]
    rfl
  | cons a as ih =>
    rcases resolve_cons a names places position with ⟨e,names',places',-,h⟩ | ⟨places',h⟩
    · rw [List.cons_append,h,h,ih]
      rfl
    · rw [List.cons_append,h,h]
      rfl

/-- Where all names are known, the events are those that were there, but for the targets of aliases. -/
lemma map_named_resolve (as : List Anchored) {names : List (List Char × Nat)}
    {places : List (Nat × Nat)} {position : Nat}
    (h : (resolve names places position as).2.2 = true) :
    (resolve names places position as).1.map Event.named = (Expected.shapes as).map Event.named := by
  induction as generalizing names places position with
  | nil => rfl
  | cons a as ih =>
    rcases resolve_cons a names places position with ⟨e,names',places',he,hcons⟩ | ⟨places',hcons⟩
    · rw [hcons] at h ⊢
      rw [List.map_cons,he,ih h]
      rfl
    · rw [hcons] at h
      cases h

namespace Document

variable {as : List Anchored} {ts us : List Token} {g : List Char}

/-- Whether what is read of a document counts. -/
def counts (d : Document) : Bool := d.complete && d.alone

lemma ofTokens_eq (h : firstEvents ts = (as,some us)) (hus : nothingFollows us = true) : ofTokens ts =
    ⟨(resolve [] [] 0 as).1,(resolve [] [] 0 as).2.1,(resolve [] [] 0 as).2.2,true⟩ := by
  cases us with
  | nil => cases hus
  | cons t us =>
    simp only [ofTokens,h,Option.getD_some,hus,Bool.and_true]

lemma counts_ofTokens_iff : (ofTokens ts).counts = true ↔
    ∃ as us, firstEvents ts = (as,some us) ∧ (resolve [] [] 0 as).2.2 = true ∧ nothingFollows us = true := by
  constructor
  · intro h
    obtain ⟨⟨as,o⟩,hfirst⟩ : ∃ p, firstEvents ts = p := ⟨_,rfl⟩
    have hparts : (resolve [] [] 0 as).2.2 = true ∧ nothingFollows (o.getD []) = true := by
      simp only [counts,ofTokens,hfirst,Bool.and_eq_true] at h
      exact ⟨h.1.1,h.2⟩
    cases o with
    | none => cases hparts.2
    | some us => exact ⟨as,us,hfirst,hparts⟩
  · rintro ⟨as,us,hfirst,hknown,hus⟩
    rw [ofTokens_eq hfirst hus,counts,hknown]
    rfl

/-- The tokens of a text whose document counts. -/
structure Whole (t : Source) (ts pre used : List Token) (tags : Expected.Tags) (j : Nat) (as : List Anchored) :
    Prop where
  tokens : (tokens t).1 = ts ++ [.streamEnd]
  parts : Parts ts pre used tags j as
  first : ∃ us, firstEvents (Yaml.tokens t).1 = (as,some us)
  known : (resolve [] [] 0 as).2.2 = true
  events : (ofSource t).events = (resolve [] [] 0 as).1
  places : (ofSource t).places = (resolve [] [] 0 as).2.1

lemma exists_whole {t : Source} (h : (ofSource t).counts = true) :
    t.margin.lacks 4 [] = false ∧ ∃ ts pre used tags j as, Whole t ts pre used tags j as := by
  obtain ⟨as,us,hfirst,hknown,hus⟩ := counts_ofTokens_iff.mp h
  obtain ⟨pre,body,tags,hbody,-,hcontent,-⟩ := exists_content hfirst
  obtain ⟨used,rfl,-⟩ := exists_used hcontent
  have hmem : Token.streamEnd ∈ (Yaml.tokens t).1 := by
    obtain ⟨j,r,rfl⟩ := exists_of_nothingFollows hus
    rw [hbody]
    simp
  obtain ⟨hlacks,ts,hts,hend⟩ := exists_streamEnd hmem
  have heq := ofTokens_eq hfirst hus
  obtain ⟨pre,used,tags,j,hparts⟩ := exists_parts (hts ▸ hfirst) hend hus
  exact ⟨hlacks,ts,pre,used,tags,j,as,hts,hparts,⟨us,hfirst⟩,hknown,congrArg events heq,congrArg places heq⟩

lemma Whole.streamEnd_mem {t : Source} {pre used : List Token} {tags : Expected.Tags} {j : Nat}
    (h : Whole t ts pre used tags j as) : Token.streamEnd ∈ (Yaml.tokens t).1 := by
  rw [h.tokens]
  simp

lemma Whole.nesting_eq {t : Source} {pre used : List Token} {tags : Expected.Tags} {j : Nat}
    (h : Whole t ts pre used tags j as) : nesting 0 (Yaml.tokens t).1 = 0 := by
  rw [h.tokens,nesting_append,h.parts.nesting_eq]
  rfl

/-- What entries behind such a text become, whose last line is ended. -/
lemma Whole.tokens_append {pre used : List Token} {tags : Expected.Tags} {j : Nat}
    (h : Whole ⟨g,[]⟩ ts pre used tags j as)
    (hg : g = [] ∨ g.getLast? = some '\n') (entry : Entry) (es : List Entry) :
    ∃ us is, ts = us ++ List.replicate is.length .blockEnd ∧
      (Source.isOpen ⟨g,[]⟩ = true ↔ j = 0 ∧ (is.getLast? = some 0 ∨ ∀ p ∈ ts, isPrelude p = true)) ∧
      ((Yaml.tokens ⟨g ++ (entry :: es).flatMap Entry.text,[]⟩).1 = entryTokens us is (entry :: es) ∨
        Source.isOpen ⟨g,[]⟩ = false ∧
          Token.streamEnd ∉ (Yaml.tokens ⟨g ++ (entry :: es).flatMap Entry.text,[]⟩).1) := by
  obtain ⟨us,is,htokens,-,hopen,hnew⟩ := tokens_append_entries hg h.streamEnd_mem h.nesting_eq entry es
  have hts : ts = us ++ List.replicate is.length .blockEnd := by
    rw [h.tokens] at htokens
    exact List.append_cancel_right htokens
  have hiff : Source.isOpen ⟨g,[]⟩ = true ↔ j = 0 ∧ (is.getLast? = some 0 ∨ ∀ p ∈ ts, isPrelude p = true) := by
    have hprelude : (ts ++ [Token.streamEnd]).all isPrelude = true ↔ ∀ p ∈ ts, isPrelude p = true := by
      simp [isPrelude]
    have hends : ((ts ++ [Token.streamEnd]).all fun p => decide (p ≠ .documentEnd)) = true ↔ j = 0 := by
      rw [List.all_eq_true,← not_iff_not,← ne_eq,← h.parts.documentEnd_mem_iff]
      simp
    rw [hopen,h.tokens,Bool.and_eq_true,Bool.or_eq_true,hprelude,hends,beq_iff_eq]
  refine ⟨us,is,hts,hiff,?_⟩
  rcases hnew with hnew | ⟨t,ht,hdirective⟩ | ⟨rfl,⟨t,ht⟩,hend⟩
  · exact Or.inl hnew
  · rw [h.parts.not_directive hts ht] at hdirective
    cases hdirective
  · refine Or.inr ⟨Bool.eq_false_iff.mpr fun htrue => ?_,hend⟩
    rcases (hiff.mp htrue).2 with hlast | hall
    · cases hlast
    · have hscalar := hall (.scalar t true) (by rw [hts]; exact List.mem_append_left _ ht)
      cases hscalar

/-- Behind a text that does not leave its list open, entries make a document that does not count. -/
theorem counts_append_of_closed (hg : g = [] ∨ g.getLast? = some '\n') (h : (ofSource ⟨g,[]⟩).counts = true)
    (hclosed : Source.isOpen ⟨g,[]⟩ = false) (entry : Entry) (es : List Entry) :
    (ofSource ⟨g ++ (entry :: es).flatMap Entry.text,[]⟩).counts = false := by
  obtain ⟨-,ts,pre,used,tags,j,as,hwhole⟩ := exists_whole h
  obtain ⟨us,is,hts,hiff,hnew | ⟨-,hend⟩⟩ := hwhole.tokens_append hg entry es
  · have hcases : j ≠ 0 ∨ is.getLast? ≠ some 0 ∧ ∃ p ∈ ts, isPrelude p = false := by
      by_contra hnot
      obtain ⟨hj,hopen⟩ := not_or.mp hnot
      have htrue := hiff.mpr ⟨not_not.mp hj,or_iff_not_imp_left.mpr fun hlast p hp => by
        by_contra hprelude
        exact hopen ⟨hlast,p,hp,Bool.eq_false_iff.mpr hprelude⟩⟩
      rw [hclosed] at htrue
      cases htrue
    obtain ⟨rest,hfirst,hrest⟩ := hwhole.parts.firstEvents_of_closed hts hcases (entry :: es)
    refine Bool.eq_false_iff.mpr fun hcounts => ?_
    rw [ofSource,hnew] at hcounts
    obtain ⟨as',us',hfirst',-,hus'⟩ := counts_ofTokens_iff.mp hcounts
    rw [hfirst] at hfirst'
    cases hfirst'
    rw [hrest] at hus'
    cases hus'
  · refine Bool.eq_false_iff.mpr fun hcounts => hend ?_
    obtain ⟨-,ts',_,_,_,_,_,hwhole'⟩ := exists_whole hcounts
    exact hwhole'.streamEnd_mem

/-- Where all names are known, plain events behind the others are seen as they are. -/
lemma ofTokens_append {es : List (Event (List Char))} (hes : ∀ e ∈ es, e.isAlias = false)
    (hknown : (resolve [] [] 0 as).2.2 = true) (h : firstEvents ts = (as ++ es.map .bare,some [.streamEnd])) :
    ofTokens ts = ⟨(resolve [] [] 0 as).1 ++ es.map Event.named,(resolve [] [] 0 as).2.1,true,true⟩ := by
  rw [ofTokens_eq h rfl,resolve_append hes,if_pos hknown,hknown]

namespace Whole

variable {t : Source} {pre used : List Token} {tags : Expected.Tags} {j : Nat} {a : Option (List Char)}
  {bs : List Anchored}

/-- A list that goes on in place of its end. -/
lemma grows (h : Whole t ts pre used tags j (⟨a,.sequenceStart⟩ :: bs ++ [⟨none,.sequenceEnd⟩])) {ts' : List Token}
    {es : List (Event (List Char))} (hes : ∀ e ∈ es, e.isAlias = false) (hne : es ≠ [])
    (hfirst : firstEvents ts' = (⟨a,.sequenceStart⟩ :: bs ++ es.map .bare,some [.streamEnd])) :
    (ofTokens ts').counts = true ∧ Grows (ofSource t) (ofTokens ts') (es.map Event.named) := by
  have hplain : ∀ e ∈ ([.sequenceEnd] : List (Event (List Char))), e.isAlias = false := by simp [Event.isAlias]
  have hresolve := resolve_append hplain (⟨a,.sequenceStart⟩ :: bs) [] [] 0
  have hknown : (resolve [] [] 0 (⟨a,.sequenceStart⟩ :: bs)).2.2 = true :=
    (congrArg (·.2.2) hresolve).symm.trans h.known
  rw [if_pos hknown] at hresolve
  have hgrown := ofTokens_append hes hknown hfirst
  obtain ⟨r,hr⟩ : ∃ r, (resolve [] [] 0 (⟨a,.sequenceStart⟩ :: bs)).1 = .sequenceStart :: r := by
    cases a <;> exact ⟨_,rfl⟩
  rw [hr] at hresolve hgrown
  refine ⟨by rw [hgrown]; rfl,by simpa using hne,⟨r,?_,congrArg Document.events hgrown⟩,?_⟩
  · exact h.events.trans (congrArg Prod.fst hresolve)
  · rw [hgrown]
    exact (h.places.trans (congrArg (·.2.1) hresolve)).symm

/-- All that a list holds is closed within it. -/
lemma nestAll_eq (h : Whole t ts pre used tags j (⟨a,.sequenceStart⟩ :: bs)) {r : List (Event Nat)}
    (hr : (ofSource t).events = .sequenceStart :: r) : nestAll [.list] r = some [] := by
  obtain ⟨us,hfirst⟩ := h.first
  have hnamed := map_named_resolve _ h.known
  rw [← h.events,hr] at hnamed
  have hshapes : r.map Event.named = (Expected.shapes bs).map Event.named := (List.cons.inj hnamed).2
  rw [← nestAll_named,hshapes,nestAll_named]
  exact nestAll_of_firstEvents hfirst

end Whole

/-- Behind a text that leaves its list open, entries go on with the list, or make one where nothing was given. -/
theorem counts_append_of_open (hg : g = [] ∨ g.getLast? = some '\n') (h : (ofSource ⟨g,[]⟩).counts = true)
    (hopen : Source.isOpen ⟨g,[]⟩ = true) (entry : Entry) (es : List Entry) :
    let d := ofSource ⟨g,[]⟩
    let d' := ofSource ⟨g ++ (entry :: es).flatMap Entry.text,[]⟩
    let z := (entry :: es).flatMap Entry.events ++ [.sequenceEnd]
    (∃ r, d.events = .mappingStart :: r) ∨ d'.counts = true ∧
      ((∃ t, d.events = [.scalar t [] true] ∧ d'.events = .sequenceStart :: z) ∨
        Grows d d' z ∧ ∀ r, d.events = .sequenceStart :: r → nestAll [.list] r = some []) := by
  intro d d' z
  obtain ⟨-,ts,pre,used,tags,j,as,hwhole⟩ := exists_whole h
  obtain ⟨us,is,hts,hiff,hnew⟩ := hwhole.tokens_append hg entry es
  replace hnew := hnew.resolve_right fun hfalse => by
    rw [hopen] at hfalse
    cases hfalse.1
  obtain ⟨hj,hlast⟩ := hiff.mp hopen
  rcases hwhole.parts.firstEvents_of_open hts hj hlast entry es with ⟨a,bs,rfl⟩ | ⟨a,bs,hfirst,has⟩
  · refine Or.inl ?_
    cases a <;> exact ⟨_,hwhole.events⟩
  refine Or.inr ?_
  have hplain := fun e he => Entry.isAlias_of_mem_tail (entry :: es) (a := e) he
  have hz := Entry.map_named_tail (entry :: es)
  rw [← hnew,List.append_assoc,Entry.map_bare_tail] at hfirst
  rcases has with rfl | ⟨rfl,t,rfl⟩
  · obtain ⟨hcounts,hgrows⟩ := hwhole.grows hplain (by simp) hfirst
    rw [hz] at hgrows
    exact ⟨hcounts,Or.inr ⟨hgrows,fun r hr => hwhole.nestAll_eq hr⟩⟩
  · have hd' := ofTokens_append hplain (by cases a <;> rfl) hfirst
    rw [hz] at hd'
    change d' = _ at hd'
    refine ⟨by rw [hd']; rfl,Or.inl ⟨t,hwhole.events.trans ?_,(congrArg events hd').trans ?_⟩⟩
    · cases a <;> rfl
    · cases a <;> rfl

end Document

end Keyring.Yaml
