import Keyring.Proofs.Yaml.Rule
import Keyring.Proofs.Yaml.Sound
import Keyring.Yaml.Decode

/-! What every run of the parser keeps. -/
namespace Keyring.Yaml.Expected

variable {tags : Tags} {e : Expected} {used ts us : List Token} {o : Option Token} {as : List Anchored}
  {more es es' : List Expected} {n : Nat}

lemma Props.isBetween_of_mem {a t : Option (List Char)} (h : Props tags used o a t) {p : Token} (hp : p ∈ used) :
    isBetween p = false :=
  h.forall_mem (P := fun p => isBetween p = false) (fun _ => rfl) (fun _ _ => rfl) p hp

lemma isBetween_of_mem_separator {first : Bool} {p : Token} (hp : p ∈ separator first) : isBetween p = false := by
  cases first <;> simp [separator] at hp
  subst hp
  rfl

lemma Marker.isBetween_of_mem {as next : Expected} {ms ends : List Token} (h : Marker e ms ends as next) {p : Token}
    (hp : p ∈ ms) : isBetween p = false := by
  cases h with
  | flowKey first =>
    rcases List.mem_append.mp hp with hp | hp
    · exact isBetween_of_mem_separator hp
    · obtain rfl := List.mem_singleton.mp hp
      rfl
  | _ =>
    obtain rfl := List.mem_singleton.mp hp
    rfl

lemma Rule.isBetween_of_mem (h : Rule tags e used o as more) {p : Token} (hp : p ∈ used) : isBetween p = false := by
  cases h with
  | reference =>
    obtain rfl := List.mem_singleton.mp hp
    rfl
  | indentless _ hps | omitted hps => exact hps.isBetween_of_mem hp
  | scalar block indentless o hps =>
    rcases List.mem_append.mp hp with hp | hp
    · exact hps.isBetween_of_mem hp
    · obtain rfl := List.mem_singleton.mp hp
      rfl
  | opens indentless o hps hopens =>
    rcases List.mem_append.mp hp with hp | hp
    · exact hps.isBetween_of_mem hp
    · obtain rfl := List.mem_singleton.mp hp
      cases p <;> first | rfl | cases hopens
  | absent hm | present hm => exact hm.isBetween_of_mem hp
  | close o hclose => cases hclose <;> simp at hp <;> rcases hp with rfl | rfl <;> rfl
  | pair first =>
    rcases List.mem_append.mp hp with hp | hp
    · exact isBetween_of_mem_separator hp
    · obtain rfl := List.mem_singleton.mp hp
      rfl
  | item | flowKey => exact isBetween_of_mem_separator hp
  | pairKeyOmitted o hmem =>
    obtain rfl := List.mem_singleton.mp hp
    simp at hmem
    rcases hmem with rfl | rfl | rfl <;> rfl
  | _ => cases hp

/-- How many brackets are open around what is expected. -/
def brackets : Expected → Nat
  | flowSequence _ => 1
  | pairKey => 1
  | pairValue => 1
  | pairEnd => 1
  | flowKey _ => 1
  | flowValue _ => 1
  | _ => 0

lemma Props.nesting_eq {a t : Option (List Char)} (h : Props tags used o a t) (n : Nat) : nesting n used = n := by
  cases h <;> rfl

/-- The parser has no fewer brackets open than its tokens. -/
lemma Rule.nesting_le (h : Rule tags e used o as more) {n d : Nat} (hn : n ≤ brackets e + d) :
    nesting n used ≤ (more.map brackets).sum + d := by
  have hseparator (first : Bool) : nesting n (separator first) = n ∧ nesting n (separator first ++ [.key]) = n := by
    cases first <;> exact ⟨rfl,rfl⟩
  have hmarker {e as next : Expected} {ms ends : List Token} (hm : Marker e ms ends as next) : nesting n ms = n ∧
      brackets next = brackets e ∧ brackets as = 0 := by
    cases hm with
    | flowKey first => exact ⟨(hseparator first).2,rfl,rfl⟩
    | _ => exact ⟨rfl,rfl,rfl⟩
  cases h with
  | reference => exact hn
  | indentless block hps =>
    rw [hps.nesting_eq]
    exact hn
  | scalar block indentless o hps =>
    rw [nesting_append,hps.nesting_eq]
    exact hn
  | @opens ps a t p ev next block indentless o hps hopens =>
    rw [nesting_append,hps.nesting_eq]
    have hn' : n ≤ d := by simpa [brackets] using hn
    cases p <;> cases block <;> cases hopens <;> simp [nesting,Token.nest,brackets] <;> omega
  | omitted hps =>
    rw [hps.nesting_eq]
    exact hn
  | absent hm => simpa [hmarker hm] using hn
  | present hm => simpa [hmarker hm] using hn
  | close o hclose => cases hclose <;> simp [nesting,Token.nest,brackets] at hn ⊢ <;> omega
  | indentlessEnd => exact hn
  | valueOmitted => exact hn
  | pair first => simpa [hseparator first,brackets] using hn
  | item first => simpa [hseparator first,brackets] using hn
  | @pairKeyOmitted p o hmem =>
    simp at hmem
    rcases hmem with rfl | rfl | rfl <;> simp [nesting,Token.nest,brackets] at hn ⊢ <;> omega
  | pairKey => simpa [brackets] using hn
  | pairValueOmitted => exact hn
  | pairEnd => exact hn
  | flowKey first => simpa [hseparator first,brackets] using hn
  | flowValueOmitted => exact hn

def isNode : Expected → Bool
  | node _ _ => true
  | _ => false

/-- Whether this may be a sequence without indentation. -/
def isIndentless : Expected → Bool
  | node _ true => true
  | indentlessSequence => true
  | _ => false

/-- Nodes stand on the top only, and sequences without indentation right above keys and values. -/
def Stacked : List Expected → Prop
  | [] => True
  | [e] => e.isIndentless = false
  | e :: e' :: es => e'.isNode = false ∧ (e.isIndentless = true → e' = blockKey ∨ e' = blockValue) ∧ Stacked (e' :: es)

/-- A rule puts something in the place of what was expected, and perhaps a node above it, or ends it. -/
lemma Rule.more_eq (h : Rule tags e used o as more) : more = [] ∨
    (∃ f, more = [f] ∧ f.isNode = false ∧ (f.isIndentless = true → e.isIndentless = true)) ∨
    ∃ b i f, more = [node b i,f] ∧ f.isNode = false ∧ (f.isIndentless = true → e.isIndentless = true) ∧
      (i = true → f = blockKey ∨ f = blockValue) := by
  cases h with
  | reference => exact Or.inl rfl
  | indentless => exact Or.inr (Or.inl ⟨_,rfl,rfl,fun _ => rfl⟩)
  | scalar => exact Or.inl rfl
  | @opens ps a t p ev next block indentless o hps hopens =>
    refine Or.inr (Or.inl ⟨next,rfl,?_⟩)
    cases p <;> cases block <;> cases hopens <;> simp [isNode,isIndentless]
  | omitted => exact Or.inl rfl
  | absent hm => cases hm <;> simp [isNode,isIndentless]
  | present hm => cases hm <;> simp [isNode,isIndentless]
  | close => exact Or.inl rfl
  | indentlessEnd => exact Or.inl rfl
  | _ => simp [isNode,isIndentless]

lemma Stacked.tail (h : Stacked (e :: es)) : Stacked es := by
  cases es with
  | nil => trivial
  | cons e' es => exact h.2.2

lemma Rule.stacked (h : Rule tags e used o as more) (hs : Stacked (e :: es)) : Stacked (more ++ es) := by
  have hput {f : Expected} (hnode : f.isNode = false) (hf : f.isIndentless = true → e.isIndentless = true) :
      Stacked (f :: es) := by
    cases es with
    | nil =>
      have hs' : e.isIndentless = false := hs
      change f.isIndentless = false
      cases hi : f.isIndentless with
      | false => rfl
      | true => rw [hf hi] at hs'; cases hs'
    | cons e' es => exact ⟨hs.1,fun hi => hs.2.1 (hf hi),hs.2.2⟩
  rcases h.more_eq with rfl | ⟨f,rfl,hnode,hf⟩ | ⟨b,i,f,rfl,hnode,hf,hi⟩
  · exact hs.tail
  · exact hput hnode hf
  · refine ⟨hnode,fun hi' => hi ?_,hput hnode hf⟩
    cases i
    · cases hi'
    · rfl

/-- Only before the first step, a node is all that is expected. -/
lemma Rule.isNode_eq_false (h : Rule tags e used o as more) (hs : Stacked (e :: es)) (he : more ++ es = [e₁]) :
    e₁.isNode = false := by
  rcases h.more_eq with rfl | ⟨f,rfl,hnode,-⟩ | ⟨b,i,f,rfl,-⟩
  · obtain rfl : es = [e₁] := he
    exact hs.1
  · obtain ⟨rfl,-⟩ := List.cons.inj he
    exact hnode
  · cases he

/-- Whether the innermost collection is a mapping. -/
def isMapping : Expected → Bool
  | blockKey => true
  | blockValue => true
  | flowKey _ => true
  | flowValue _ => true
  | _ => false

/-- What is expected last stays in its collection. -/
lemma Rule.isMapping_eq (h : Rule tags e used o as more) (he : e.isNode = false) :
    ∀ f ∈ more.getLast?, f.isNode = false ∧ f.isMapping = e.isMapping := by
  cases h with
  | reference => cases he
  | indentless => cases he
  | scalar => cases he
  | opens => cases he
  | omitted => cases he
  | absent hm => cases hm <;> simp [isMapping,isNode]
  | present hm => cases hm <;> simp [isMapping,isNode]
  | close => simp
  | _ => simp [isMapping,isNode]

/-- A run that ends is made of steps. -/
lemma exists_yields {k : Nat} (h : run tags k es ts = (as,some us)) : ∃ n ≤ k, Yields tags n es ts as [] us := by
  induction k generalizing es ts as with
  | zero =>
    cases es with
    | nil =>
      cases h
      exact ⟨0,Nat.le_refl 0,.refl [] us⟩
    | cons e es => cases h
  | succ k ih =>
    cases es with
    | nil =>
      cases h
      exact ⟨0,Nat.zero_le _,.refl [] us⟩
    | cons e es =>
      rw [run] at h
      cases hstep : step tags e ts with
      | none =>
        rw [hstep] at h
        cases h
      | some p =>
        obtain ⟨bs,more,us'⟩ := p
        rw [hstep] at h
        obtain ⟨has,hus⟩ := Prod.mk.inj h
        obtain ⟨n,hn,hyields⟩ := ih (Prod.ext rfl hus)
        exact ⟨n+1,Nat.succ_le_succ hn,has ▸ .step hstep hyields⟩

namespace Yields

/-- The tokens taken stand in front; none of them ends a document or stands before one, and they leave no more brackets
open than what is expected then. Other tokens may follow them, if the first one is the same. -/
lemma exists_used (h : Yields tags n es ts as es' us) : ∃ used, ts = used ++ us ∧ (∀ p ∈ used, isBetween p = false) ∧
    (∀ k ≤ (es.map brackets).sum, nesting k used ≤ (es'.map brackets).sum) ∧
    ∀ us', us'.head? = us.head? → Yields tags n es (used ++ us') as es' us' := by
  induction h with
  | refl es ts => exact ⟨[],rfl,fun p hp => (List.not_mem_nil hp).elim,fun k hk => hk,fun us' _ => .refl es us'⟩
  | @step n e es more es' ts us ts' as bs hstep hrest ih =>
    obtain ⟨used,rfl,hrule⟩ := rule_of_step hstep
    obtain ⟨used',rfl,hbetween,hnesting,happend⟩ := ih
    refine ⟨used ++ used',by rw [List.append_assoc],fun p hp => ?_,fun k hk => ?_,fun us' hus' => ?_⟩
    · rcases List.mem_append.mp hp with hp | hp
      · exact hrule.isBetween_of_mem hp
      · exact hbetween p hp
    · rw [nesting_append]
      refine hnesting _ ?_
      rw [List.map_append,List.sum_append]
      exact hrule.nesting_le (by simpa using hk)
    · rw [List.append_assoc]
      refine .step (step_of_rule ?_) (happend us' hus')
      have hhead : (used' ++ us').head? = (used' ++ ts').head? := by
        rw [List.head?_append,List.head?_append,hus']
      rwa [hhead]

lemma length_le (h : Yields tags n es ts as es' us) : us.length ≤ ts.length := by
  obtain ⟨used,rfl,-⟩ := h.exists_used
  simp

/-- The last step of a run. -/
lemma exists_last (h : Yields tags (n+1) es ts as es' us) : ∃ e rest more used as₁ as₂,
    Yields tags n es ts as₁ (e :: rest) (used ++ us) ∧ Rule tags e used us.head? as₂ more ∧ es' = more ++ rest ∧
      as = as₁ ++ as₂ := by
  induction n generalizing es ts as with
  | zero =>
    cases h with
    | @step _ e rest more _ _ _ _ as₁ as₂ hstep hrest =>
      obtain ⟨used,rfl,hrule⟩ := rule_of_step hstep
      cases hrest with
      | refl => exact ⟨e,rest,more,used,[],as₁,.refl _ _,hrule,rfl,by simp⟩
  | succ n ih =>
    cases h with
    | @step _ _ _ _ _ _ _ _ as₁ as₂ hstep hrest =>
      obtain ⟨e,rest,more,used,bs₁,bs₂,hyields,hrule,hes,rfl⟩ := ih hrest
      exact ⟨e,rest,more,used,as₁ ++ bs₁,bs₂,.step hstep hyields,hrule,hes,by rw [List.append_assoc]⟩

lemma stacked (h : Yields tags n es ts as es' us) (hs : Stacked es) : Stacked es' := by
  induction h with
  | refl => exact hs
  | step hstep _ ih =>
    obtain ⟨used,-,hrule⟩ := rule_of_step hstep
    exact ih (hrule.stacked hs)

lemma stacked_of_node (h : Yields tags n [node true false] ts as es' us) : Stacked es' :=
  h.stacked (rfl : (node true false).isIndentless = false)

/-- What is expected last stays in its collection, as long as it is not ended. -/
lemma isMapping_eq (h : Yields tags n es ts as es' us) {f g : Expected} (hf : es.getLast? = some f)
    (hnode : f.isNode = false)
    (hg : es'.getLast? = some g) : g.isNode = false ∧ g.isMapping = f.isMapping := by
  induction h generalizing f with
  | refl =>
    obtain rfl := Option.some.inj (hf.symm.trans hg)
    exact ⟨hnode,rfl⟩
  | @step n e es more es' ts us ts' as bs hstep hrest ih =>
    obtain ⟨used,-,hrule⟩ := rule_of_step hstep
    cases hes : es.getLast? with
    | some f' =>
      have hne : es ≠ [] := by
        rintro rfl
        cases hes
      rw [List.getLast?_cons_of_ne_nil hne] at hf
      refine ih ?_ hnode hg
      rw [List.getLast?_append_of_ne_nil more hne,hf]
    | none =>
      obtain rfl := List.getLast?_eq_none_iff.mp hes
      obtain rfl : e = f := by simpa using hf
      cases hmore : more.getLast? with
      | none =>
        obtain rfl := List.getLast?_eq_none_iff.mp hmore
        cases hrest with
        | refl => cases hg
      | some f' =>
        obtain ⟨hnode',hmapping⟩ := hrule.isMapping_eq hnode f' hmore
        rw [← hmapping]
        exact ih (by simpa using hmore) hnode' hg

end Yields

end Keyring.Yaml.Expected
