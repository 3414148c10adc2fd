import Keyring.Proofs.Yaml.Ending
import Keyring.Proofs.Yaml.Extension
import Keyring.Proofs.Yaml.Seam.Arrival

/-! Documents whose text ends with an entry. -/
namespace Keyring.Yaml

variable {tags : Expected.Tags} {as : List Anchored} {pre ts us used r : List Token} {j : Nat} {p : Token}

/-- A token that does not stand between documents is one of the content. -/
lemma Parts.exists_yields (h : Parts ts pre used tags j as) (hp : Yaml.isBetween p = false)
    (hts : ts ++ [Token.streamEnd] = us ++ p :: r) :
    ∃ n v, Expected.Yields tags n [.node true false] (v ++ p :: r) as []
      (List.replicate j Token.documentEnd ++ [Token.streamEnd]) := by
  have hbetween : ∀ q ∈ List.replicate j Token.documentEnd ++ [Token.streamEnd], Yaml.isBetween q = true := by
    intro q hq
    rcases List.mem_append.mp hq with hq | hq
    · rw [List.eq_of_mem_replicate hq]
      rfl
    · obtain rfl := List.mem_singleton.mp hq
      rfl
  have hpre : p ∉ pre := fun hmem => by
    rcases h.opens.eq_of_mem hmem with hp' | rfl
    · cases p <;> cases hp <;> cases hp'
    · cases hp
  obtain ⟨v,hv⟩ : ∃ v, used ++ (List.replicate j Token.documentEnd ++ [.streamEnd]) = v ++ p :: r := by
    rw [h.eq,List.append_assoc,List.append_assoc] at hts
    rcases List.append_eq_append_iff.mp hts with ⟨v,-,hv⟩ | ⟨v,rfl,hv⟩
    · exact ⟨v,hv⟩
    · cases v with
      | nil => exact ⟨[],hv.symm⟩
      | cons d v =>
        obtain ⟨rfl,-⟩ := List.cons.inj hv
        exact absurd (List.mem_append_right us List.mem_cons_self) hpre
  have hevents := h.events
  cases hused : used with
  | nil =>
    rw [hused,List.nil_append] at hv
    rw [hbetween p (by simp [hv])] at hp
    cases hp
  | cons t used' =>
    have ht : Yaml.isBetween t = false := h.isBetween t (by simp [hused])
    rw [hv] at hevents
    rw [hused,List.cons_append] at hv
    rw [← hv,contentEvents_cons ht] at hevents
    obtain ⟨n,-,hyields⟩ := Expected.exists_yields hevents
    exact ⟨n,v,hv ▸ hyields⟩

namespace Document

lemma Whole.of_neighbours {t : Source} (h : Whole t ts pre used tags j as) : ¬Scan.HasNeighbours (Yaml.tokens t).1 := by
  rintro ⟨us,text,k,text',vs,hts⟩
  rw [h.tokens] at hts
  obtain ⟨n,v,hyields⟩ := h.parts.exists_yields rfl hts
  simpa using hyields.not_neighbours

/-- A document whose last tokens are those of an entry is a mapping, or a list with that entry as its last item. -/
lemma Whole.events_of_entry {t : Source} (h : Whole t ts pre used tags j as) {is : List Nat} {entry : Entry}
    (htokens : (Yaml.tokens t).1 = entryTokens us is [entry]) : (∃ r, (ofSource t).events = .mappingStart :: r) ∨
      ∃ r, (ofSource t).events = .sequenceStart :: r ++ (entry.events ++ [Event.sequenceEnd]) ∧
        nestAll [.list] r = some [.list] := by
  obtain ⟨vs,hvs⟩ : ∃ vs, entryTokens us is [entry] = vs ++ (entry.tokens ++ [Token.blockEnd,.blockEnd,.streamEnd]) :=
    ⟨_,by rw [entryTokens,List.flatMap_singleton,List.append_assoc,List.append_assoc entry.tokens]; rfl⟩
  rw [h.tokens,hvs] at htokens
  obtain rfl : j = 0 := by
    cases j with
    | zero => rfl
    | succ j =>
      have hcancel : ts ++ [Token.streamEnd] =
          vs ++ (entry.tokens ++ [Token.blockEnd]) ++ [Token.blockEnd] ++ [Token.streamEnd] := by
        simpa using htokens
      have hts := List.append_cancel_right hcancel
      rw [h.parts.eq,List.replicate_succ',← List.append_assoc] at hts
      cases (List.append_inj' hts rfl).2
  have hentry : entry.tokens ++ [Token.blockEnd,.blockEnd,.streamEnd] =
    .blockEntry :: (entry.tokens.tail ++ [Token.blockEnd,.blockEnd,.streamEnd]) := rfl
  rw [hentry] at htokens
  obtain ⟨n,v,hyields⟩ := h.parts.exists_yields rfl htokens
  rw [← hentry] at hyields
  rcases hyields.of_entry with ⟨a,bs,rfl⟩ | ⟨a,bs,rfl,hnest⟩
  · refine Or.inl ?_
    cases a <;> exact ⟨_,h.events⟩
  refine Or.inr ?_
  have hevents := h.events
  have hknown := h.known
  rw [← List.flatMap_singleton Entry.events entry,Entry.map_bare_tail,
    resolve_append fun e => Entry.isAlias_of_mem_tail [entry]] at hevents hknown
  rw [if_pos hknown,Entry.map_named_tail,List.flatMap_singleton] at hevents
  obtain ⟨r,hr⟩ : ∃ r, (resolve [] [] 0 (⟨a,.sequenceStart⟩ :: bs)).1 = .sequenceStart :: r := by
    cases a <;> exact ⟨_,rfl⟩
  refine ⟨r,hr ▸ hevents,?_⟩
  have hshapes := map_named_resolve (⟨a,.sequenceStart⟩ :: bs) hknown
  rw [hr] at hshapes
  rw [← nestAll_named,(List.cons.inj hshapes).2,nestAll_named]
  exact hnest

/-- Behind a text whose last line is ended, an entry is the last item of a list, if the document counts and is no
mapping. -/
theorem events_append_entry {g : List Char} (hg : g = [] ∨ g.getLast? = some '\n') {entry : Entry}
    (hy : Tame entry.text) (h : (ofSource ⟨g ++ entry.text,[]⟩).counts = true) :
    (∃ r, (ofSource ⟨g ++ entry.text,[]⟩).events = .mappingStart :: r) ∨
      ∃ r, (ofSource ⟨g ++ entry.text,[]⟩).events = .sequenceStart :: r ++ (entry.events ++ [Event.sequenceEnd]) ∧
        nestAll [.list] r = some [.list] := by
  obtain ⟨-,ts,pre,used,tags,j,as,hwhole⟩ := exists_whole h
  rcases tokens_of_entry hg hy hwhole.streamEnd_mem hwhole.nesting_eq with ⟨us,is,htokens⟩ | hneighbours
  · exact hwhole.events_of_entry htokens
  · exact absurd hneighbours hwhole.of_neighbours

end Document

end Keyring.Yaml
