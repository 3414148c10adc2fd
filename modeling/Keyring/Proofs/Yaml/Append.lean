import Keyring.Proofs.Yaml.Content
import Keyring.Proofs.Yaml.Seam.Tokens

/-! Documents with entries behind them. -/
namespace Keyring.Yaml

variable {tags : Expected.Tags} {as : List Anchored} {pre ts us body : List Token}

/-- What may begin the content of a document without a start mark. -/
def isContent (p : Token) : Bool := p == .streamEnd || !isBetween p

/-- The tokens before the content of a document. -/
structure Opens (pre : List Token) (tags : Expected.Tags) : Prop where
  shape : pre = [] ∨ ∃ ds, pre = ds ++ [.documentStart] ∧ ∀ p ∈ ds, p.isDirective = true
  events : ∀ body, (pre = [] → ∀ p ∈ body.head?, isContent p) → firstEvents (pre ++ body) = contentEvents tags body

lemma directives_eq {version : Bool} {tags tags' : Expected.Tags} {r : List Token}
    (h : directives version tags ts = some (tags',.documentStart :: r)) : ∃ ds, ts = ds ++ Token.documentStart :: r ∧
      (∀ p ∈ ds, p.isDirective = true) ∧
      ∀ r', directives version tags (ds ++ Token.documentStart :: r') = some (tags',.documentStart :: r') := by
  fun_induction directives version tags ts with
  | case1 => cases h
  | case2 version tags major minor ts hversion ih =>
    obtain ⟨ds,rfl,hds,happend⟩ := ih h
    refine ⟨.version major minor :: ds,rfl,List.forall_mem_cons.mpr ⟨rfl,hds⟩,fun r' => ?_⟩
    rw [List.cons_append,directives,if_neg hversion]
    exact happend r'
  | case3 => cases h
  | case4 version tags handle lead ts hhandle ih =>
    obtain ⟨ds,rfl,hds,happend⟩ := ih h
    refine ⟨.tagDirective handle lead :: ds,rfl,List.forall_mem_cons.mpr ⟨rfl,hds⟩,fun r' => ?_⟩
    rw [List.cons_append,directives,if_neg hhandle]
    exact happend r'
  | case5 version tags ts =>
    cases h
    exact ⟨[],rfl,by simp,fun r' => rfl⟩

lemma firstEvents_of_content (h : ∀ p ∈ body.head?, isContent p) :
    firstEvents body = contentEvents defaultTags body := by
  cases body with
  | nil => rfl
  | cons t r =>
    have ht := h t rfl
    cases t <;> first | rfl | cases ht

lemma firstEvents_of_start {t : Token} (ht : t.isDirective = true ∨ t = .documentStart) (r : List Token) :
    firstEvents (t :: r) = match directives false [] (t :: r) with
      | some (tags,.documentStart :: r) => contentEvents tags r
      | _ => ([],none) := by
  rcases ht with ht | rfl
  · cases t <;> first | rfl | cases ht
  · rfl

/-- Where the content of a first document begins. -/
lemma exists_content (h : firstEvents ts = (as,some us)) : ∃ pre body tags, ts = pre ++ body ∧ Opens pre tags ∧
    contentEvents tags body = (as,some us) ∧ (pre = [] → ∀ p ∈ body.head?, isContent p) := by
  cases ts with
  | nil => cases h
  | cons t r =>
    by_cases hcontent : isContent t = true
    · have hhead : ∀ p ∈ (t :: r).head?, isContent p := by simpa using hcontent
      refine ⟨[],t :: r,defaultTags,rfl,⟨Or.inl rfl,fun body hbody => firstEvents_of_content (hbody rfl)⟩,
        ?_,fun _ => hhead⟩
      rw [← h,firstEvents_of_content hhead]
    · have hstart : t.isDirective = true ∨ t = .documentStart := by
        cases t
        case version => exact Or.inl rfl
        case tagDirective => exact Or.inl rfl
        case documentStart => exact Or.inr rfl
        case documentEnd => cases h
        all_goals exact absurd rfl hcontent
      rw [firstEvents_of_start hstart] at h
      split at h
      · next tags body hdirectives =>
        obtain ⟨ds,hts,hds,happend⟩ := directives_eq hdirectives
        refine ⟨ds ++ [.documentStart],body,tags,by simp [hts],⟨Or.inr ⟨ds,rfl,hds⟩,fun body' _ => ?_⟩,h,by simp⟩
        obtain ⟨t',r',hcons,hstart'⟩ : ∃ t' r', ds ++ Token.documentStart :: body' = t' :: r' ∧
            (t'.isDirective = true ∨ t' = .documentStart) := by
          cases ds with
          | nil => exact ⟨_,_,rfl,Or.inr rfl⟩
          | cons d ds => exact ⟨_,_,rfl,Or.inl (hds d List.mem_cons_self)⟩
        have hbody := happend body'
        rw [List.append_assoc,List.singleton_append,hcons,firstEvents_of_start hstart',← hcons,hbody]
      · cases h

/-- The tokens before and behind the content of a first document that no other one follows. -/
lemma exists_used (h : contentEvents tags body = (as,some us)) : ∃ used, body = used ++ us ∧
    (∀ p ∈ used, isBetween p = false) ∧ nesting 0 used = 0 ∧
    ∀ us', us'.head? = us.head? → us.length ≤ us'.length → contentEvents tags (used ++ us') = (as,some us') := by
  cases body with
  | nil => cases h
  | cons t r =>
    rw [contentEvents] at h
    split_ifs at h with ht
    · cases h
      refine ⟨[],rfl,by simp,rfl,fun us' hus' _ => ?_⟩
      obtain ⟨r',rfl⟩ := List.head?_eq_some_iff.mp hus'
      rw [List.nil_append,contentEvents,if_pos ht]
    · obtain ⟨n,hn,hyields⟩ := Expected.exists_yields h
      obtain ⟨used,hused,hbetween,hnesting,happend⟩ := hyields.exists_used
      refine ⟨used,hused,hbetween,Nat.le_zero.mp (hnesting 0 (Nat.le_refl 0)),fun us' hus' hlength => ?_⟩
      obtain ⟨r',hr'⟩ : ∃ r', used ++ us' = t :: r' := by
        have hhead : (used ++ us').head? = some t := by
          rw [List.head?_append,hus',← List.head?_append,← hused]
          rfl
        exact List.head?_eq_some_iff.mp hhead
      have hevents := (happend us' hus').events_eq (by
        rw [hused] at hn
        simp only [List.length_append] at hn ⊢
        omega)
      rw [hr'] at hevents ⊢
      rw [contentEvents,if_neg ht,hevents]

lemma exists_of_nothingFollows (h : nothingFollows ts = true) :
    ∃ j r, ts = List.replicate j Token.documentEnd ++ Token.streamEnd :: r := by
  fun_induction nothingFollows ts with
  | case1 ts ih =>
    obtain ⟨j,r,rfl⟩ := ih h
    exact ⟨j+1,r,rfl⟩
  | case2 ts => exact ⟨0,ts,rfl⟩
  | case3 => cases h

lemma nothingFollows_replicate (j : Nat) (ts : List Token) :
    nothingFollows (List.replicate j Token.documentEnd ++ ts) = nothingFollows ts := by
  induction j with
  | zero => rfl
  | succ j ih => exact ih

lemma nesting_eq_of_forall {ts : List Token} (h : ∀ p ∈ ts, ∀ n, p.nest n = n) (n : Nat) : nesting n ts = n := by
  induction ts with
  | nil => rfl
  | cons p ts ih =>
    rw [nesting,List.foldl_cons,h p List.mem_cons_self]
    exact ih fun q hq => h q (List.mem_cons_of_mem p hq)

namespace Opens

variable (h : Opens pre tags)
include h

lemma eq_of_mem {p : Token} (hp : p ∈ pre) : p.isDirective = true ∨ p = .documentStart := by
  rcases h.shape with rfl | ⟨ds,rfl,hds⟩
  · cases hp
  · rcases List.mem_append.mp hp with hp | hp
    · exact Or.inl (hds p hp)
    · exact Or.inr (List.mem_singleton.mp hp)

lemma isPrelude_of_mem {p : Token} (hp : p ∈ pre) : isPrelude p = true := by
  rcases h.eq_of_mem hp with hp | rfl
  · cases p <;> first | rfl | cases hp
  · rfl

lemma nesting_eq : nesting 0 pre = 0 := by
  refine nesting_eq_of_forall (fun p hp n => ?_) 0
  rcases h.eq_of_mem hp with hp | rfl
  · cases p <;> first | rfl | cases hp
  · rfl

end Opens

lemma contentEvents_cons {t : Token} (ht : isBetween t = false) (r : List Token) :
    contentEvents tags (t :: r) = Expected.events tags (t :: r) := by
  rw [contentEvents,ht,if_neg Bool.false_ne_true]

lemma head_isContent (hbody : ∀ p ∈ body, isBetween p = false) {t : Token} (ht : isBetween t = false) (r : List Token) :
    ∀ p ∈ (body ++ t :: r).head?, isContent p = true := by
  have hcontent {p : Token} (hp : isBetween p = false) : isContent p = true := by rw [isContent,hp]; simp
  intro p hp
  cases body with
  | nil =>
    obtain rfl := Option.some.inj hp
    exact hcontent ht
  | cons d body =>
    obtain rfl := Option.some.inj hp
    exact hcontent (hbody _ List.mem_cons_self)

/-- The content of a document that ends with the stream. If it is left out, entries behind it are a list in its place.
Else what follows does not count. -/
lemma contentEvents_append (h : contentEvents tags (ts ++ [.streamEnd]) = (as,some [.streamEnd]))
    (hts : ∀ p ∈ ts, isBetween p = false) : ((∀ p ∈ ts, isPrelude p = true) ∧ ∃ a t, as = [⟨a,.scalar t [] true⟩] ∧
      ∀ (es : List Entry) (r : List Token), contentEvents tags
        (ts ++ Token.blockSequenceStart :: es.flatMap (fun e => e.tokens ++ [Token.blockEnd]) ++ Token.blockEnd :: r) =
        (⟨a,.sequenceStart⟩ :: (es.flatMap Entry.events).map .bare ++ [⟨none,.sequenceEnd⟩],some r)) ∨
      (∃ p ∈ ts, isPrelude p = false) ∧ ∀ r, r ≠ [] → contentEvents tags (ts ++ r) = (as,some r) := by
  cases ts with
  | nil =>
    cases h
    refine Or.inl ⟨by simp,none,none,rfl,fun es r => ?_⟩
    exact Expected.events_list_of_props (.none (by simp) (by simp)) es r
  | cons t ts =>
    have ht := hts t List.mem_cons_self
    rw [List.cons_append,contentEvents_cons ht,← List.cons_append] at h
    rcases Expected.events_append h with ⟨a,tag,hprops,rfl⟩ | ⟨hprelude,hall⟩
    · refine Or.inl ⟨fun p hp => hprops.isPrelude_of_mem hp,a,tag,rfl,fun es r => ?_⟩
      refine (contentEvents_cons ht _).trans ?_
      exact Expected.events_list_of_props (hprops.of_other (by simp) (by simp)) es r
    · exact Or.inr ⟨hprelude,fun r hr => (contentEvents_cons ht _).trans (hall r hr)⟩

/-- The tokens of a stream with one document, before the end of the stream. -/
structure Parts (ts pre used : List Token) (tags : Expected.Tags) (j : Nat) (as : List Anchored) : Prop where
  eq : ts = pre ++ used ++ List.replicate j Token.documentEnd
  opens : Opens pre tags
  head : pre = [] → ∀ p ∈ (used ++ (List.replicate j Token.documentEnd ++ [Token.streamEnd])).head?, isContent p
  isBetween : ∀ p ∈ used, isBetween p = false
  nesting : nesting 0 used = 0
  events : contentEvents tags (used ++ (List.replicate j Token.documentEnd ++ [.streamEnd])) =
    (as,some (List.replicate j Token.documentEnd ++ [.streamEnd]))

lemma exists_parts (h : firstEvents (ts ++ [.streamEnd]) = (as,some us)) (hts : Token.streamEnd ∉ ts)
    (hus : nothingFollows us = true) : ∃ pre used tags j, Parts ts pre used tags j as := by
  obtain ⟨pre,body,tags,hbody,hopens,hcontent,hhead⟩ := exists_content h
  obtain ⟨used,rfl,hbetween,hnesting,-⟩ := exists_used hcontent
  obtain ⟨j,r,rfl⟩ := exists_of_nothingFollows hus
  rw [← List.append_assoc,← List.append_assoc] at hbody
  obtain ⟨rfl,rfl⟩ : ts = pre ++ used ++ List.replicate j Token.documentEnd ∧ r = [] := by
    rcases List.eq_nil_or_concat r with rfl | ⟨r,t,rfl⟩
    · exact ⟨List.append_cancel_right hbody,rfl⟩
    · rw [List.concat_eq_append,← List.cons_append,← List.append_assoc] at hbody
      obtain ⟨rfl,-⟩ := List.append_inj' hbody rfl
      simp at hts
  exact ⟨pre,used,tags,j,rfl,hopens,hhead,hbetween,hnesting,hcontent⟩

namespace Parts

variable {used : List Token} {j : Nat}

/-- The end of the last block is the end of the content. -/
lemma exists_blockEnd (h : Parts ts pre used tags 0 as) {us : List Token} {k : Nat}
    (hts : ts = us ++ List.replicate (k+1) Token.blockEnd) :
    ∃ used₀, used = used₀ ++ [.blockEnd] ∧ us ++ List.replicate k Token.blockEnd = pre ++ used₀ := by
  have hend : pre ++ used = us ++ List.replicate k Token.blockEnd ++ [.blockEnd] := by
    rw [List.append_assoc,← List.replicate_succ',← hts,h.eq,List.replicate_zero,List.append_nil]
  rcases List.eq_nil_or_concat used with rfl | ⟨used₀,p,rfl⟩
  · have hmem : .blockEnd ∈ pre := by
      rw [List.append_nil] at hend
      rw [hend]
      simp
    rcases h.opens.eq_of_mem hmem with hp | hp <;> cases hp
  · rw [List.concat_eq_append,← List.append_assoc] at hend
    obtain ⟨hfront,hlast⟩ := List.append_inj' hend rfl
    cases hlast
    exact ⟨used₀,List.concat_eq_append,hfront.symm⟩

/-- Entries behind a list in the first column go on with it. -/
lemma firstEvents_of_list (h : Parts ts pre used tags 0 as) {us : List Token} {is : List Nat}
    (hts : ts = us ++ List.replicate is.length Token.blockEnd) (hlast : is.getLast? = some 0) (entry : Entry)
    (es : List Entry) :
    (∃ a bs, as = ⟨a,.mappingStart⟩ :: bs) ∨
      ∃ a bs, as = ⟨a,.sequenceStart⟩ :: bs ++ [⟨none,.sequenceEnd⟩] ∧
        firstEvents (entryTokens us is (entry :: es)) = (⟨a,.sequenceStart⟩ :: bs ++
          ((entry :: es).flatMap Entry.events).map .bare ++ [⟨none,.sequenceEnd⟩],some [.streamEnd]) := by
  obtain ⟨k,hk⟩ : ∃ k, is.length = k+1 := Nat.exists_eq_succ_of_ne_zero fun hk => by
    rw [List.length_eq_zero_iff.mp hk] at hlast
    cases hlast
  obtain ⟨used₀,rfl,hfront⟩ := h.exists_blockEnd (hk ▸ hts)
  have hbetween : ∀ p ∈ used₀, Yaml.isBetween p = false := fun p hp => h.isBetween p (List.mem_append_left _ hp)
  have hcons {t : Token} (ht : Yaml.isBetween t = false) (r : List Token) :
      contentEvents tags (used₀ ++ t :: r) = Expected.events tags (used₀ ++ t :: r) := by
    cases used₀ with
    | nil => exact contentEvents_cons ht r
    | cons d used₀ => exact contentEvents_cons (hbetween d List.mem_cons_self) _
  have hall : Expected.events tags (used₀ ++ [.blockEnd,.streamEnd]) = (as,some [.streamEnd]) := by
    rw [← hcons rfl]
    simpa using h.events
  refine (Expected.events_entries_append hall).imp_right ?_
  rintro ⟨a,bs,rfl,hentries⟩
  refine ⟨a,bs,rfl,?_⟩
  have hevents := hentries (entry :: es) [.streamEnd] (List.cons_ne_nil entry es)
  obtain ⟨inner,hinner⟩ :
      ∃ inner, (entry :: es).flatMap (fun e => e.tokens ++ [Token.blockEnd]) = .blockEntry :: inner :=
    ⟨_,rfl⟩
  have htokens : entryTokens us is (entry :: es) =
      pre ++ (used₀ ++ Token.blockEntry :: (inner ++ [.blockEnd,.streamEnd])) := by
    rw [entryTokens,if_pos hlast,hk,hinner,Nat.add_sub_cancel,hfront]
    simp
  rw [hinner] at hevents
  rw [htokens,h.opens.events _ fun _ => head_isContent hbetween rfl _,hcons rfl,← hevents]
  simp

/-- Entries behind a document that is left out are a list in its place. -/
lemma firstEvents_of_prelude (h : Parts ts pre used tags 0 as) (hprelude : ∀ p ∈ ts, isPrelude p = true)
    (es : List Entry) : ∃ a t, as = [⟨a,.scalar t [] true⟩] ∧ firstEvents (entryTokens ts [] es) =
      (⟨a,.sequenceStart⟩ :: (es.flatMap Entry.events).map .bare ++ [⟨none,.sequenceEnd⟩],some [.streamEnd]) := by
  have heq : ts = pre ++ used := by simpa using h.eq
  rcases contentEvents_append h.events h.isBetween with ⟨-,a,t,rfl,hall⟩ | ⟨⟨p,hp,hfalse⟩,-⟩
  · refine ⟨a,t,rfl,?_⟩
    have htokens : entryTokens ts [] es = pre ++ (used ++
        Token.blockSequenceStart :: es.flatMap (fun e => e.tokens ++ [Token.blockEnd]) ++
          [Token.blockEnd,.streamEnd]) := by
      rw [entryTokens,heq]
      simp
    rw [htokens,h.opens.events _ fun _ => ?_,hall es [.streamEnd]]
    rw [List.append_assoc]
    exact head_isContent h.isBetween rfl _
  · have hmem : p ∈ ts := heq ▸ List.mem_append_right pre hp
    rw [hprelude p hmem] at hfalse
    cases hfalse

/-- Behind a document that is not left out, another one begins with the entries. -/
lemma firstEvents_of_content (h : Parts ts pre used tags 0 as) (hcontent : ∃ p ∈ ts, isPrelude p = false)
    (r : List Token) :
    firstEvents (ts ++ Token.blockSequenceStart :: r) = (as,some (.blockSequenceStart :: r)) := by
  have heq : ts = pre ++ used := by simpa using h.eq
  obtain ⟨p,hp,hfalse⟩ := hcontent
  rcases contentEvents_append h.events h.isBetween with ⟨hall,-⟩ | ⟨-,hall⟩
  · rw [heq] at hp
    have htrue : isPrelude p = true := (List.mem_append.mp hp).elim h.opens.isPrelude_of_mem (hall p)
    rw [hfalse] at htrue
    cases htrue
  · rw [heq,List.append_assoc,h.opens.events _ fun _ => head_isContent h.isBetween rfl r]
    exact hall _ (List.cons_ne_nil _ _)

/-- A document that is ended stays as it is. -/
lemma firstEvents_of_ended (h : Parts ts pre used tags (j+1) as) (r : List Token) :
    firstEvents (ts ++ Token.blockSequenceStart :: r) =
      (as,some (List.replicate (j+1) Token.documentEnd ++ Token.blockSequenceStart :: r)) := by
  obtain ⟨used',hused',-,-,hall⟩ := exists_used h.events
  obtain rfl := List.append_cancel_right hused'
  rw [h.eq,List.append_assoc,List.append_assoc,h.opens.events]
  · exact hall _ rfl (by simp)
  · intro hpre p hp
    refine h.head hpre p ?_
    rw [List.head?_append] at hp ⊢
    exact hp

variable (h : Parts ts pre used tags j as)
include h

lemma nesting_eq : Yaml.nesting 0 ts = 0 := by
  have hends : Yaml.nesting 0 (List.replicate j Token.documentEnd) = 0 := nesting_eq_of_forall (fun p hp n => by
    rw [List.eq_of_mem_replicate hp]
    rfl) 0
  rw [h.eq,nesting_append,nesting_append,h.opens.nesting_eq,h.nesting,hends]

lemma documentEnd_mem_iff : .documentEnd ∈ ts ↔ j ≠ 0 := by
  have hpre : .documentEnd ∉ pre := fun hp => by rcases h.opens.eq_of_mem hp with hp | hp <;> cases hp
  have hused : .documentEnd ∉ used := fun hp => by cases h.isBetween _ hp
  rw [h.eq,List.mem_append,List.mem_append,List.mem_replicate]
  simp [hpre,hused]

/-- A directive does not stand last, or before the ends of blocks. -/
lemma not_directive {us : List Token} {k : Nat} (hts : ts = us ++ List.replicate k Token.blockEnd) {t : Token}
    (ht : us.getLast? = some t) : t.isDirective = false := by
  have hrest : t ∈ used ++ List.replicate j Token.documentEnd → t.isDirective = false := fun hmem => by
    rcases List.mem_append.mp hmem with hmem | hmem
    · have hbetween := h.isBetween t hmem
      cases t <;> first | rfl | cases hbetween
    · rw [List.eq_of_mem_replicate hmem]
      rfl
  have heq := h.eq
  rw [hts,List.append_assoc] at heq
  rcases h.opens.shape with rfl | ⟨ds,rfl,-⟩
  · refine hrest ?_
    rw [List.nil_append] at heq
    rw [← heq]
    exact List.mem_append_left _ (List.mem_of_getLast? ht)
  · rw [List.append_assoc] at heq
    rcases List.append_eq_append_iff.mp heq with ⟨ds',rfl,hreplicate⟩ | ⟨us',rfl,hcons⟩
    · have hmem : .documentStart ∈ List.replicate k Token.blockEnd := by
        rw [hreplicate]
        simp
      cases List.eq_of_mem_replicate hmem
    · cases us' with
      | nil =>
        have hmem : .documentStart ∈ List.replicate k Token.blockEnd := by
          rw [List.nil_append] at hcons
          rw [← hcons]
          simp
        cases List.eq_of_mem_replicate hmem
      | cons d us' =>
        obtain ⟨rfl,hused⟩ := List.cons.inj hcons
        change used ++ List.replicate j Token.documentEnd = us' ++ List.replicate k Token.blockEnd at hused
        rw [List.getLast?_append_of_ne_nil ds (List.cons_ne_nil _ us')] at ht
        cases us' with
        | nil =>
          cases ht
          rfl
        | cons d us' =>
          refine hrest ?_
          rw [hused]
          rw [List.getLast?_cons_of_ne_nil (List.cons_ne_nil d us')] at ht
          exact List.mem_append_left _ (List.mem_of_getLast? ht)

/-- Entries behind a document that is ended, or not a list in the first column, are not part of it. -/
lemma firstEvents_of_closed {us : List Token} {is : List Nat} (hts : ts = us ++ List.replicate is.length Token.blockEnd)
    (hclosed : j ≠ 0 ∨ is.getLast? ≠ some 0 ∧ ∃ p ∈ ts, isPrelude p = false) (es : List Entry) :
    ∃ rest, firstEvents (entryTokens us is es) = (as,some rest) ∧ nothingFollows rest = false := by
  have htokens (hlast : is.getLast? ≠ some 0) : ∃ r, entryTokens us is es = ts ++ Token.blockSequenceStart :: r := by
    rw [entryTokens,if_neg hlast,← List.append_assoc us,← hts]
    exact ⟨es.flatMap (fun e => e.tokens ++ [Token.blockEnd]) ++ [Token.blockEnd,.streamEnd],by simp⟩
  cases j with
  | zero =>
    obtain ⟨hlast,hcontent⟩ := hclosed.resolve_left (fun h => h rfl)
    obtain ⟨r,hr⟩ := htokens hlast
    exact ⟨_,hr ▸ h.firstEvents_of_content hcontent r,rfl⟩
  | succ j =>
    have hnil : is = [] := by
      rcases List.eq_nil_or_concat is with rfl | ⟨is,i,rfl⟩
      · rfl
      · rw [h.eq,List.length_concat,List.replicate_succ',List.replicate_succ',← List.append_assoc,
          ← List.append_assoc] at hts
        cases (List.append_inj' hts rfl).2
    obtain ⟨r,hr⟩ := htokens (by simp [hnil])
    exact ⟨_,hr ▸ h.firstEvents_of_ended r,nothingFollows_replicate _ _⟩

/-- Entries behind a document that is left out, or a list in the first column, go on with the list. -/
lemma firstEvents_of_open {us : List Token} {is : List Nat} (hts : ts = us ++ List.replicate is.length Token.blockEnd)
    (hj : j = 0) (hopen : is.getLast? = some 0 ∨ ∀ p ∈ ts, isPrelude p = true) (entry : Entry) (es : List Entry) :
    (∃ a bs, as = ⟨a,.mappingStart⟩ :: bs) ∨ ∃ a bs, firstEvents (entryTokens us is (entry :: es)) =
      (⟨a,.sequenceStart⟩ :: bs ++ ((entry :: es).flatMap Entry.events).map .bare ++ [⟨none,.sequenceEnd⟩],
        some [.streamEnd]) ∧
      (as = ⟨a,.sequenceStart⟩ :: bs ++ [⟨none,.sequenceEnd⟩] ∨ bs = [] ∧ ∃ t, as = [⟨a,.scalar t [] true⟩]) := by
  subst hj
  rcases hopen with hlast | hprelude
  · refine (h.firstEvents_of_list hts hlast entry es).imp_right ?_
    rintro ⟨a,bs,has,hfirst⟩
    exact ⟨a,bs,hfirst,Or.inl has⟩
  · obtain rfl : is = [] := by
      cases is with
      | nil => rfl
      | cons i is => cases hprelude .blockEnd (by simp [hts])
    obtain rfl : ts = us := by simpa using hts
    obtain ⟨a,t,has,hfirst⟩ := h.firstEvents_of_prelude hprelude (entry :: es)
    exact Or.inr ⟨a,[],hfirst,Or.inr ⟨rfl,t,has⟩⟩

end Parts

end Keyring.Yaml
