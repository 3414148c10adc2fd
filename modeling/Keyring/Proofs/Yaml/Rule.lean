import Keyring.Proofs.Yaml.Events

/-! What one step of a parser can do, as rules. A rule tells the tokens it takes, the one it looks at behind them, the
events it makes and what is expected next. -/
namespace Keyring.Yaml.Expected

variable {tags : Tags}

/-- The tokens of an anchor and a tag, which end before the token `o`. -/
inductive Props (tags : Tags) : List Token → Option Token → Option (List Char) → Option (List Char) → Prop
  | anchorTag {h s t : List Char} (a : List Char) (o : Option Token) : resolveTag tags h s = some t →
      Props tags [.anchor a,.tag h s] o (some a) (some t)
  | tagAnchor {h s t : List Char} (a : List Char) (o : Option Token) : resolveTag tags h s = some t →
      Props tags [.tag h s,.anchor a] o (some a) (some t)
  | anchor {o : Option Token} (a : List Char) : (∀ h s, o ≠ some (.tag h s)) → Props tags [.anchor a] o (some a) none
  | tag {o : Option Token} {h s t : List Char} : (∀ a, o ≠ some (.anchor a)) → resolveTag tags h s = some t →
      Props tags [.tag h s] o none (some t)
  | none {o : Option Token} : (∀ a, o ≠ some (.anchor a)) → (∀ h s, o ≠ some (.tag h s)) → Props tags [] o none none

lemma Props.forall_mem {ps : List Token} {o : Option Token} {a t : Option (List Char)} (h : Props tags ps o a t)
    {P : Token → Prop} (hanchor : ∀ a, P (.anchor a)) (htag : ∀ h s, P (.tag h s)) : ∀ p ∈ ps, P p := by
  cases h with
  | anchorTag | tagAnchor => simp [hanchor,htag]
  | anchor => simp [hanchor]
  | tag => simp [htag]
  | none => exact nofun

lemma properties_eq_some_iff {ts r : List Token} {a t : Option (List Char)} : properties tags ts = some (a,t,r) ↔
    ∃ ps, ts = ps ++ r ∧ Props tags ps r.head? a t := by
  constructor
  · intro h
    unfold properties at h
    split at h
    · obtain ⟨t,ht,h⟩ := Option.map_eq_some_iff.mp h
      cases h
      exact ⟨_,rfl,.anchorTag _ _ ht⟩
    · obtain ⟨t,ht,h⟩ := Option.map_eq_some_iff.mp h
      cases h
      exact ⟨_,rfl,.tagAnchor _ _ ht⟩
    · next hne =>
      cases h
      refine ⟨_,rfl,.anchor _ fun h s ho => ?_⟩
      obtain ⟨r,rfl⟩ := List.head?_eq_some_iff.mp ho
      exact hne _ _ _ rfl
    · next hne =>
      obtain ⟨t,ht,h⟩ := Option.map_eq_some_iff.mp h
      cases h
      refine ⟨_,rfl,.tag (fun a ho => ?_) ht⟩
      obtain ⟨r,rfl⟩ := List.head?_eq_some_iff.mp ho
      exact hne _ _ rfl
    · next hanchor htag =>
      cases h
      refine ⟨[],rfl,.none (fun a ho => ?_) fun h s ho => ?_⟩
      · obtain ⟨r,rfl⟩ := List.head?_eq_some_iff.mp ho
        exact hanchor a r rfl
      · obtain ⟨r,rfl⟩ := List.head?_eq_some_iff.mp ho
        exact htag h s r rfl
  · rintro ⟨ps,rfl,h⟩
    cases h with
    | anchorTag a o ht => simp [properties,ht]
    | tagAnchor a o ht => simp [properties,ht]
    | anchor a ho =>
      cases r with
      | nil => rfl
      | cons o r =>
        cases o
        case tag h s => exact absurd rfl (ho h s)
        all_goals rfl
    | tag ho ht =>
      cases r with
      | nil => simp [properties,ht]
      | cons o r =>
        cases o
        case anchor a => exact absurd rfl (ho a)
        all_goals simp [properties,ht]
    | none hanchor htag =>
      cases r with
      | nil => rfl
      | cons o r =>
        cases o
        case anchor a => exact absurd rfl (hanchor a)
        case tag h s => exact absurd rfl (htag h s)
        all_goals rfl

/-- What a token opens. -/
def opening? (block : Bool) : Token → Option (Event (List Char) × Expected)
  | .flowSequenceStart => some (.sequenceStart,flowSequence true)
  | .flowMappingStart => some (.mappingStart,flowKey true)
  | .blockSequenceStart => if block then some (.sequenceStart,blockSequence) else none
  | .blockMappingStart => if block then some (.mappingStart,blockKey) else none
  | _ => none

/-- What separates the entries inside of brackets. -/
def separator (first : Bool) : List Token := if first then [] else [.flowEntry]

/-- Tokens behind which a node stands, unless one of the tokens `ends` follows. -/
inductive Marker : Expected → List Token → (ends : List Token) → (as next : Expected) → Prop
  | blockSequence : Marker blockSequence [.blockEntry] [.blockEntry,.blockEnd] (node true false) blockSequence
  | indentlessSequence : Marker indentlessSequence [.blockEntry] [.blockEntry,.key,.value,.blockEnd] (node true false)
      indentlessSequence
  | blockKey : Marker blockKey [.key] [.key,.value,.blockEnd] (node true true) blockValue
  | blockValue : Marker blockValue [.value] [.key,.value,.blockEnd] (node true true) blockKey
  | pairValue : Marker pairValue [.value] [.flowEntry,.flowSequenceEnd] (node false false) pairEnd
  | flowKey (first : Bool) : Marker (flowKey first) (separator first ++ [.key]) [.value,.flowEntry,.flowMappingEnd]
      (node false false) (flowValue false)
  | flowValue : Marker (flowValue false) [.value] [.flowEntry,.flowMappingEnd] (node false false) (flowKey false)

/-- Tokens that close a collection. -/
inductive Close : Expected → List Token → Event (List Char) → Prop
  | blockSequence : Close blockSequence [.blockEnd] .sequenceEnd
  | blockMapping : Close blockKey [.blockEnd] .mappingEnd
  | flowSequence (first : Bool) : Close (flowSequence first) [.flowSequenceEnd] .sequenceEnd
  | flowSequenceEntry : Close (flowSequence false) [.flowEntry,.flowSequenceEnd] .sequenceEnd
  | flowMapping (first : Bool) : Close (flowKey first) [.flowMappingEnd] .mappingEnd
  | flowMappingEntry : Close (flowKey false) [.flowEntry,.flowMappingEnd] .mappingEnd

/-- The rules of the parser. -/
inductive Rule (tags : Tags) : Expected → List Token → Option Token → List Anchored → List Expected → Prop
  | reference (block indentless : Bool) (name : List Char) (o : Option Token) :
      Rule tags (node block indentless) [.alias name] o [⟨none,.alias name⟩] []
  | indentless {ps : List Token} {a t : Option (List Char)} (block : Bool) : Props tags ps (some .blockEntry) a t →
      Rule tags (node block true) ps (some .blockEntry) [⟨a,.sequenceStart⟩] [indentlessSequence]
  | scalar {ps : List Token} {a t : Option (List Char)} {text : List Char} {plain : Bool} (block indentless : Bool)
      (o : Option Token) : Props tags ps (some (.scalar text plain)) a t →
      Rule tags (node block indentless) (ps ++ [.scalar text plain]) o [⟨a,.scalar t text plain⟩] []
  | opens {ps : List Token} {a t : Option (List Char)} {p : Token} {e : Event (List Char)} {next : Expected}
      {block : Bool} (indentless : Bool) (o : Option Token) : Props tags ps (some p) a t →
      opening? block p = some (e,next) → Rule tags (node block indentless) (ps ++ [p]) o [⟨a,e⟩] [next]
  | omitted {ps : List Token} {a t : Option (List Char)} {o : Token} {block indentless : Bool} :
      Props tags ps (some o) a t → (a.isSome ∨ t.isSome) → (∀ text plain, o ≠ .scalar text plain) →
      opening? block o = none → ¬(indentless = true ∧ o = .blockEntry) →
      Rule tags (node block indentless) ps (some o) [⟨a,.scalar t [] true⟩] []
  | absent {e as next : Expected} {ms ends : List Token} {o : Token} : Marker e ms ends as next → o ∈ ends →
      Rule tags e ms (some o) [.empty] [next]
  | present {e as next : Expected} {ms ends : List Token} {o : Token} : Marker e ms ends as next → o ∉ ends →
      Rule tags e ms (some o) [] [as,next]
  | close {e : Expected} {used : List Token} {ev : Event (List Char)} (o : Option Token) : Close e used ev →
      Rule tags e used o [⟨none,ev⟩] []
  | indentlessEnd {o : Token} : o ≠ .blockEntry →
      Rule tags indentlessSequence [] (some o) [⟨none,.sequenceEnd⟩] []
  | valueOmitted {o : Token} : o ≠ .value → Rule tags blockValue [] (some o) [.empty] [blockKey]
  | pair (first : Bool) (o : Option Token) :
      Rule tags (flowSequence first) (separator first ++ [.key]) o [⟨none,.mappingStart⟩] [pairKey]
  | item {o : Token} (first : Bool) : o ≠ .flowSequenceEnd → o ≠ .key →
      Rule tags (flowSequence first) (separator first) (some o) [] [node false false,flowSequence false]
  | pairKeyOmitted {p : Token} (o : Option Token) : p ∈ [.value,.flowEntry,.flowSequenceEnd] →
      Rule tags pairKey [p] o [.empty] [pairValue]
  | pairKey {o : Token} : o ∉ [.value,.flowEntry,.flowSequenceEnd] →
      Rule tags pairKey [] (some o) [] [node false false,pairValue]
  | pairValueOmitted {o : Token} : o ≠ .value → Rule tags pairValue [] (some o) [.empty] [pairEnd]
  | pairEnd (o : Token) : Rule tags pairEnd [] (some o) [⟨none,.mappingEnd⟩] [flowSequence false]
  | flowKey {o : Token} (first : Bool) : o ≠ .flowMappingEnd → o ≠ .key →
      Rule tags (flowKey first) (separator first) (some o) [] [node false false,flowValue true]
  | flowValueOmitted {o : Token} {omitted : Bool} : (o = .value → omitted = true) →
      Rule tags (flowValue omitted) [] (some o) [.empty] [flowKey false]

lemma rule_of_nodeStep {block indentless : Bool} {ts us : List Token} {as : List Anchored} {more : List Expected}
    (h : nodeStep tags block indentless ts = some (as,more,us)) :
    ∃ used, ts = used ++ us ∧ Rule tags (node block indentless) used us.head? as more := by
  unfold nodeStep at h
  split at h
  · cases h
    exact ⟨[_],rfl,.reference ..⟩
  obtain ⟨⟨a,t,r⟩,hprops,hnode⟩ := Option.bind_eq_some_iff.mp h
  obtain ⟨ps,rfl,hps⟩ := properties_eq_some_iff.mp hprops
  clear h hprops
  dsimp only at hnode
  split at hnode
  · cases hnode
  next o r _ =>
  split at hnode
  · next hentry =>
    obtain ⟨rfl,rfl⟩ := hentry
    cases hnode
    exact ⟨ps,rfl,.indentless block hps⟩
  next hentry =>
  split at hnode
  · cases hnode
    exact ⟨ps ++ [_],by simp,.scalar _ _ _ hps⟩
  · cases hnode
    exact ⟨ps ++ [_],by simp,.opens _ _ hps rfl⟩
  · cases hnode
    exact ⟨ps ++ [_],by simp,.opens _ _ hps rfl⟩
  · cases hnode
    exact ⟨ps ++ [_],by simp,.opens _ _ hps rfl⟩
  · cases hnode
    exact ⟨ps ++ [_],by simp,.opens _ _ hps rfl⟩
  · next hscalar hseq hmap hblockSeq hblockMap =>
    split at hnode
    · next hsome =>
      cases hnode
      refine ⟨ps,rfl,.omitted hps hsome (fun text plain ho => hscalar text plain ho) ?_ hentry⟩
      cases o
      case flowSequenceStart => exact absurd rfl hseq
      case flowMappingStart => exact absurd rfl hmap
      case blockSequenceStart =>
        cases block
        · rfl
        · exact absurd rfl (hblockSeq rfl)
      case blockMappingStart =>
        cases block
        · rfl
        · exact absurd rfl (hblockMap rfl)
      all_goals rfl
    · cases hnode

lemma rule_of_nodeUnless {e as next : Expected} {ms ends r us : List Token} {es : List Anchored} {more : List Expected}
    (hm : Marker e ms ends as next) (h : nodeUnless ends as next r = some (es,more,us)) :
    ∃ used, ms ++ r = used ++ us ∧ Rule tags e used us.head? es more := by
  unfold nodeUnless at h
  split at h
  · cases h
  · split at h
    · next hmem =>
      cases h
      exact ⟨ms,rfl,.absent hm hmem⟩
    · next hmem =>
      cases h
      exact ⟨ms,rfl,.present hm hmem⟩

/-- The brackets that entries stand in: those of a sequence or those of a mapping. -/
inductive Brackets where
  | sequence
  | mapping

namespace Brackets

def expected : Brackets → (first : Bool) → Expected
  | sequence => flowSequence
  | mapping => flowKey

def closing : Brackets → Token
  | sequence => .flowSequenceEnd
  | mapping => .flowMappingEnd

def ended : Brackets → Event (List Char)
  | sequence => .sequenceEnd
  | mapping => .mappingEnd

/-- What is expected behind a node that stands without the indicator of a key. -/
def behindNode : Brackets → Expected
  | sequence => flowSequence false
  | mapping => flowValue true

/-- What stands behind the indicator of a key. -/
def keyed : Brackets → List Token → Option Step
  | sequence,r => some ([⟨none,.mappingStart⟩],[pairKey],r)
  | mapping,r => nodeUnless [.value,.flowEntry,.flowMappingEnd] (node false false) (flowValue false) r

/-- What stands behind the separator. -/
def entries (b : Brackets) : List Token → Option Step
  | [] => none
  | t :: r =>
    if t = .key then b.keyed r
    else if t = b.closing then some ([⟨none,b.ended⟩],[],r)
    else some ([],[node false false,b.behindNode],t :: r)

lemma step_entries (b : Brackets) (first : Bool) (r : List Token) :
    step tags (b.expected first) (separator first ++ r) = b.entries r := by
  cases r with
  | nil => cases b <;> cases first <;> rfl
  | cons t r => cases b <;> cases first <;> cases t <;> rfl

lemma entries_of_ne (b : Brackets) {o : Token} (hclose : o ≠ b.closing) (hkey : o ≠ .key) (r : List Token) :
    b.entries (o :: r) = some ([],[node false false,b.behindNode],o :: r) := by
  rw [entries,if_neg hkey,if_neg hclose]

lemma close (b : Brackets) (first : Bool) : Close (b.expected first) [b.closing] b.ended := by
  cases b with
  | sequence => exact .flowSequence first
  | mapping => exact .flowMapping first

lemma close_separated (b : Brackets) (first : Bool) :
    Close (b.expected first) (separator first ++ [b.closing]) b.ended := by
  cases first with
  | true => exact b.close true
  | false =>
    cases b with
    | sequence => exact .flowSequenceEntry
    | mapping => exact .flowMappingEntry

lemma rule_of_node (b : Brackets) (first : Bool) {o : Token} (hclose : o ≠ b.closing) (hkey : o ≠ .key) :
    Rule tags (b.expected first) (separator first) (some o) [] [node false false,b.behindNode] := by
  cases b with
  | sequence => exact .item first hclose hkey
  | mapping => exact .flowKey first hclose hkey

variable {r us : List Token} {as : List Anchored} {more : List Expected}

lemma rule_of_keyed (b : Brackets) (first : Bool) (h : b.keyed r = some (as,more,us)) :
    ∃ used, separator first ++ .key :: r = used ++ us ∧ Rule tags (b.expected first) used us.head? as more := by
  cases b with
  | sequence =>
    cases h
    exact ⟨separator first ++ [.key],by simp,.pair first _⟩
  | mapping =>
    obtain ⟨used,hused,hrule⟩ := rule_of_nodeUnless (.flowKey first) h
    exact ⟨used,by rw [← hused]; simp,hrule⟩

lemma rule_of_entries (b : Brackets) (first : Bool) (h : b.entries r = some (as,more,us)) :
    ∃ used, separator first ++ r = used ++ us ∧ Rule tags (b.expected first) used us.head? as more := by
  cases r with
  | nil => cases h
  | cons o r =>
    rw [entries] at h
    split_ifs at h with hkey hclose
    · exact hkey ▸ b.rule_of_keyed first h
    · cases h
      exact ⟨separator first ++ [b.closing],by simp [hclose],.close _ (b.close_separated first)⟩
    · cases h
      exact ⟨separator first,rfl,b.rule_of_node first hclose hkey⟩

/-- Inside brackets, the separator is followed by an entry or by the end. Without it only the end may stand, except
before the first entry. -/
lemma rule_of_step (b : Brackets) {first : Bool} {t : Token}
    (h : step tags (b.expected first) (t :: r) = some (as,more,us)) :
    ∃ used, t :: r = used ++ us ∧ Rule tags (b.expected first) used us.head? as more := by
  cases first with
  | true => exact b.rule_of_entries true ((b.step_entries true (t :: r)).symm.trans h)
  | false =>
    by_cases hentry : t = .flowEntry
    · subst hentry
      exact b.rule_of_entries false ((b.step_entries false r).symm.trans h)
    by_cases hclose : t = b.closing
    · subst hclose
      have hstep : step tags (b.expected false) (b.closing :: r) = some ([⟨none,b.ended⟩],[],r) := by cases b <;> rfl
      cases hstep.symm.trans h
      exact ⟨[b.closing],rfl,.close _ (b.close false)⟩
    · cases b <;> simp_all [expected,closing,step]

end Brackets

lemma rule_of_step {e : Expected} {ts us : List Token} {as : List Anchored} {more : List Expected}
    (h : step tags e ts = some (as,more,us)) : ∃ used, ts = used ++ us ∧ Rule tags e used us.head? as more := by
  cases ts with
  | nil => cases e <;> cases h
  | cons t r =>
  cases e with
  | node block indentless => exact rule_of_nodeStep h
  | blockSequence =>
    simp only [step] at h
    split at h
    · exact rule_of_nodeUnless .blockSequence h
    · cases h
      exact ⟨[_],rfl,.close _ .blockSequence⟩
    · cases h
  | indentlessSequence =>
    simp only [step] at h
    split at h
    · exact rule_of_nodeUnless .indentlessSequence h
    · next hne =>
      cases h
      exact ⟨[],rfl,.indentlessEnd hne⟩
  | blockKey =>
    simp only [step] at h
    split at h
    · exact rule_of_nodeUnless .blockKey h
    · cases h
      exact ⟨[_],rfl,.close _ .blockMapping⟩
    · cases h
  | blockValue =>
    simp only [step] at h
    split at h
    · exact rule_of_nodeUnless .blockValue h
    · next hne =>
      cases h
      exact ⟨[],rfl,.valueOmitted hne⟩
  | flowSequence first => exact Brackets.sequence.rule_of_step h
  | pairKey =>
    simp only [step] at h
    split at h
    · next hmem =>
      cases h
      exact ⟨[t],rfl,.pairKeyOmitted _ hmem⟩
    · next hmem =>
      cases h
      exact ⟨[],rfl,.pairKey hmem⟩
  | pairValue =>
    simp only [step] at h
    split at h
    · exact rule_of_nodeUnless .pairValue h
    · next hne =>
      cases h
      exact ⟨[],rfl,.pairValueOmitted hne⟩
  | pairEnd =>
    cases h
    exact ⟨[],rfl,.pairEnd t⟩
  | flowKey first => exact Brackets.mapping.rule_of_step h
  | flowValue omitted =>
    simp only [step] at h
    split at h
    · exact rule_of_nodeUnless .flowValue h
    · next hne =>
      cases h
      refine ⟨[],rfl,.flowValueOmitted fun ht => ?_⟩
      cases omitted
      · exact absurd rfl (hne ht)
      · rfl

lemma step_of_props {block indentless : Bool} {ps r : List Token} {o : Token} {a t : Option (List Char)}
    (h : Props tags ps (some o) a t) (ho : ps = [] → ∀ name, o ≠ .alias name) :
    step tags (node block indentless) (ps ++ o :: r) =
      if indentless ∧ o = .blockEntry then some ([⟨a,.sequenceStart⟩],[indentlessSequence],o :: r)
      else match o with
        | .scalar text plain => some ([⟨a,.scalar t text plain⟩],[],r)
        | o => match opening? block o with
          | some (e,next) => some ([⟨a,e⟩],[next],r)
          | none => if a.isSome ∨ t.isSome then some ([⟨a,.scalar t [] true⟩],[],o :: r) else none := by
  have hprops : properties tags (ps ++ o :: r) = some (a,t,o :: r) :=
    properties_eq_some_iff.mpr ⟨ps,rfl,h⟩
  have hne : ∀ name r', ps ++ o :: r ≠ .alias name :: r' := by
    rintro name r' heq
    cases h with
    | none _ _ => exact ho rfl name (List.cons.inj heq).1
    | _ => cases heq
  have hnode : step tags (node block indentless) (ps ++ o :: r) = nodeStep tags block indentless (ps ++ o :: r) := by
    obtain ⟨o',r',heq⟩ := List.exists_cons_of_ne_nil (List.append_ne_nil_of_right_ne_nil ps (List.cons_ne_nil o r))
    rw [heq]
    rfl
  rw [hnode]
  unfold nodeStep
  split
  · next heq => exact absurd heq (hne _ _)
  simp only [hprops,Option.bind_eq_bind,Option.bind_some]
  by_cases hentry : indentless = true ∧ o = .blockEntry
  · simp only [if_pos hentry]
  · simp only [if_neg hentry]
    cases o <;> cases block <;> rfl

lemma step_of_marker {e as next : Expected} {ms ends : List Token} (h : Marker e ms ends as next) (r : List Token) :
    step tags e (ms ++ r) = nodeUnless ends as next r := by
  cases h with
  | flowKey first =>
    rw [List.append_assoc]
    exact Brackets.mapping.step_entries first (.key :: r)
  | _ => rfl

lemma step_of_rule {e : Expected} {used us : List Token} {as : List Anchored} {more : List Expected}
    (h : Rule tags e used us.head? as more) : step tags e (used ++ us) = some (as,more,us) := by
  have hhead {o : Token} (ho : us.head? = some o) : ∃ r, us = o :: r := List.head?_eq_some_iff.mp ho
  generalize ho : us.head? = o at h
  cases h with
  | reference block indentless name o => rfl
  | indentless block hps =>
    obtain ⟨r,rfl⟩ := hhead ho
    exact (step_of_props hps fun _ _ => Token.noConfusion).trans (if_pos ⟨rfl,rfl⟩)
  | scalar block indentless o hps =>
    rw [List.append_assoc]
    exact (step_of_props hps fun _ _ => Token.noConfusion).trans (if_neg fun h => Token.noConfusion h.2)
  | @opens ps a t p e next block indentless o hps hopens =>
    rw [List.append_assoc]
    refine (step_of_props (r := us) hps fun _ name hp => ?_).trans ?_
    · subst hp
      cases hopens
    · cases p <;> simp_all [opening?]
  | @omitted ps a t o block indentless hps hsome hscalar hopens hentry =>
    obtain ⟨r,rfl⟩ := hhead ho
    refine (step_of_props hps fun hnil name hp => ?_).trans ?_
    · subst hnil
      cases hps
      simp at hsome
    · rw [if_neg hentry]
      cases o
      case scalar text plain => exact absurd rfl (hscalar text plain)
      all_goals simp only [hopens,if_pos hsome]
  | absent hm hmem =>
    obtain ⟨r,rfl⟩ := hhead ho
    rw [step_of_marker hm,nodeUnless,if_pos hmem]
  | present hm hmem =>
    obtain ⟨r,rfl⟩ := hhead ho
    rw [step_of_marker hm,nodeUnless,if_neg hmem]
  | close o hclose =>
    cases hclose with
    | flowSequence first => cases first <;> rfl
    | flowMapping first => cases first <;> rfl
    | _ => rfl
  | indentlessEnd hne =>
    obtain ⟨r,rfl⟩ := hhead ho
    simp only [List.nil_append,step]
  | valueOmitted hne =>
    obtain ⟨r,rfl⟩ := hhead ho
    simp only [List.nil_append,step]
  | pair first o =>
    rw [List.append_assoc]
    exact Brackets.sequence.step_entries first (.key :: us)
  | @item o first hclose hkey =>
    obtain ⟨r,rfl⟩ := hhead ho
    exact (Brackets.sequence.step_entries first (o :: r)).trans (Brackets.sequence.entries_of_ne hclose hkey r)
  | pairKeyOmitted o hmem => simp only [List.singleton_append,step,if_pos hmem]
  | pairKey hmem =>
    obtain ⟨r,rfl⟩ := hhead ho
    simp only [List.nil_append,step,if_neg hmem]
  | pairValueOmitted hne =>
    obtain ⟨r,rfl⟩ := hhead ho
    simp only [List.nil_append,step]
  | pairEnd o =>
    obtain ⟨r,rfl⟩ := hhead ho
    rfl
  | @flowKey o first hclose hkey =>
    obtain ⟨r,rfl⟩ := hhead ho
    exact (Brackets.mapping.step_entries first (o :: r)).trans (Brackets.mapping.entries_of_ne hclose hkey r)
  | flowValueOmitted homitted =>
    obtain ⟨r,rfl⟩ := hhead ho
    simp only [List.nil_append,step]
    split
    · exact absurd (homitted rfl) Bool.false_ne_true
    · rfl

end Keyring.Yaml.Expected
