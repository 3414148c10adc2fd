import Keyring.Proofs.Yaml.Append

/-! How collections nest in the events of a document. -/
namespace Keyring.Yaml

/-- An open collection: a list, or a mapping where a name or a value is next. -/
inductive Frame where
  | list
  | name
  | value

namespace Frame

/-- The collection behind one node more. -/
def next : Frame → Frame
  | list => list
  | name => value
  | value => name

/-- The open collections, innermost first, behind one node more in the innermost one. -/
def turn : List Frame → List Frame
  | [] => []
  | f :: fs => f.next :: fs

@[simp] lemma turn_turn (fs : List Frame) : turn (turn fs) = fs := by
  cases fs with
  | nil => rfl
  | cons f fs => cases f <;> rfl

end Frame

/-- The collections open behind an event. A mapping ends behind its values only. -/
def Event.nest {ref : Type} : List Frame → Event ref → Option (List Frame)
  | [],_ => none
  | .list :: fs,.sequenceEnd => some fs
  | .name :: fs,.mappingEnd => some fs
  | _,.sequenceEnd => none
  | _,.mappingEnd => none
  | fs,.sequenceStart => some (.list :: Frame.turn fs)
  | fs,.mappingStart => some (.name :: Frame.turn fs)
  | fs,_ => some (Frame.turn fs)

/-- The collections open behind events. -/
def nestAll {ref : Type} (fs : List Frame) (es : List (Event ref)) : Option (List Frame) := es.foldlM Event.nest fs

section

variable {ref : Type} {fs : List Frame} {e : Event ref} {es es' : List (Event ref)}

@[simp] lemma nestAll_nil (fs : List Frame) : nestAll fs ([] : List (Event ref)) = some fs := rfl

lemma nestAll_cons : nestAll fs (e :: es) = (e.nest fs).bind fun fs => nestAll fs es := rfl

lemma nestAll_append : nestAll fs (es ++ es') = (nestAll fs es).bind fun fs => nestAll fs es' := List.foldlM_append

lemma nestAll_named (fs : List Frame) (es : List (Event ref)) : nestAll fs (es.map Event.named) = nestAll fs es := by
  have hnest (fs : List Frame) (e : Event ref) : e.named.nest fs = e.nest fs := by
    cases fs with
    | nil => cases e <;> rfl
    | cons f fs => cases f <;> cases e <;> rfl
  rw [nestAll,List.foldlM_map]
  simp only [hnest]
  rfl

variable (h : fs ≠ [])
include h

lemma nest_alias (target : ref) : (Event.alias target).nest fs = some (Frame.turn fs) := by
  obtain ⟨f,fs,rfl⟩ := List.exists_cons_of_ne_nil h
  cases f <;> rfl

lemma nest_scalar (tag : Option (List Char)) (text : List Char) (plain : Bool) :
    (Event.scalar tag text plain : Event ref).nest fs = some (Frame.turn fs) := by
  obtain ⟨f,fs,rfl⟩ := List.exists_cons_of_ne_nil h
  cases f <;> rfl

lemma nest_sequenceStart : (Event.sequenceStart : Event ref).nest fs = some (.list :: Frame.turn fs) := by
  obtain ⟨f,fs,rfl⟩ := List.exists_cons_of_ne_nil h
  cases f <;> rfl

lemma nest_mappingStart : (Event.mappingStart : Event ref).nest fs = some (.name :: Frame.turn fs) := by
  obtain ⟨f,fs,rfl⟩ := List.exists_cons_of_ne_nil h
  cases f <;> rfl

end

namespace Expected

variable {tags : Tags} {e f : Expected} {used us ts : List Token} {o : Option Token} {as bs : List Anchored}
  {more es es' : List Expected} {n : Nat}

/-- The collections that are open where this is expected, but for those around it. -/
def frame : Expected → List Frame
  | node _ _ => []
  | blockSequence => [.list]
  | indentlessSequence => [.list]
  | blockKey => [.name]
  | blockValue => [.value]
  | flowSequence _ => [.list]
  | pairKey => [.name,.list]
  | pairValue => [.value,.list]
  | pairEnd => [.name,.list]
  | flowKey _ => [.name]
  | flowValue _ => [.value]

/-- The collections that are open. What is expected below a node is what is expected behind it. -/
def frames : List Expected → List Frame
  | [] => []
  | e :: es => if e.isNode then Frame.turn (frames es) else e.frame ++ frames es

def shapes (as : List Anchored) : List (Event (List Char)) := as.map (·.event)

/-- The events of a rule lead from the collections open before to those open behind. -/
lemma Rule.nestAll_eq (h : Rule tags e used o as more) (hs : e.isNode = true → frames es ≠ []) :
    nestAll (frames (e :: es)) (shapes as) = some (frames (more ++ es)) := by
  have hturn (hne : frames es ≠ []) : Frame.turn (frames es) ≠ [] := by
    obtain ⟨f,fs,hes⟩ := List.exists_cons_of_ne_nil hne
    rw [hes]
    exact List.cons_ne_nil _ _
  have hstart {ev : Event (List Char)} {next : Expected} {block : Bool} {p : Token}
    (hopens : opening? block p = some (ev,next))
      (hne : frames es ≠ []) : nestAll (Frame.turn (frames es)) [ev] = some (frames (next :: es)) := by
    cases p <;> cases block <;> cases hopens <;>
      simp [nestAll_cons,nest_sequenceStart (hturn hne),nest_mappingStart (hturn hne),frames,isNode,frame]
  cases h with
  | reference => simp [shapes,nestAll_cons,frames,isNode,nest_alias (hturn (hs rfl))]
  | indentless => simp [shapes,nestAll_cons,frames,isNode,frame,nest_sequenceStart (hturn (hs rfl))]
  | scalar => simp [shapes,nestAll_cons,frames,isNode,nest_scalar (hturn (hs rfl))]
  | opens i o hps hopens => exact hstart hopens (hs rfl)
  | omitted => simp [shapes,nestAll_cons,frames,isNode,nest_scalar (hturn (hs rfl))]
  | absent hm =>
    cases hm <;> simp [shapes,Anchored.empty,nestAll_cons,frames,isNode,frame,Event.nest,Frame.turn,Frame.next]
  | present hm => cases hm <;> simp [shapes,frames,isNode,frame,Frame.turn,Frame.next]
  | close o hclose => cases hclose <;> simp [shapes,nestAll_cons,frames,isNode,frame,Event.nest]
  | _ => simp [shapes,Anchored.empty,nestAll_cons,frames,isNode,frame,Event.nest,Frame.turn,Frame.next]

lemma frames_ne_nil (he : e.isNode = false) (es : List Expected) : frames (e :: es) ≠ [] := by
  rw [frames,he]
  cases e <;> first | exact List.cons_ne_nil _ _ | cases he

/-- The events of a run inside of a collection lead from the collections open before to those open behind. -/
lemma Yields.nestAll_eq (h : Yields tags n es ts as es' us) (hs : Stacked es)
    (hlast : ∀ f ∈ es.getLast?, f.isNode = false) :
    nestAll (frames es) (shapes as) = some (frames es') := by
  induction h with
  | refl => rfl
  | @step n e es more es' ts us ts' as bs hstep hrest ih =>
    obtain ⟨used,rfl,hrule⟩ := rule_of_step hstep
    have hfirst : nestAll (frames (e :: es)) (shapes as) = some (frames (more ++ es)) := by
      refine hrule.nestAll_eq fun hnode => ?_
      cases es with
      | nil =>
        rw [hlast e rfl] at hnode
        cases hnode
      | cons e' es => exact frames_ne_nil hs.1 es
    have hlast' : ∀ f ∈ (more ++ es).getLast?, f.isNode = false := by
      intro f hf
      cases es with
      | nil =>
        rw [List.append_nil] at hf
        exact (hrule.isMapping_eq (hlast e rfl) f hf).1
      | cons e' es =>
        rw [List.getLast?_append_of_ne_nil more (List.cons_ne_nil e' es)] at hf
        exact hlast f (by rwa [List.getLast?_cons_of_ne_nil (List.cons_ne_nil e' es)])
    rw [shapes,List.map_append,nestAll_append]
    change (nestAll _ (shapes as)).bind _ = _
    rw [hfirst]
    exact ih (hrule.stacked hs) hlast'

/-- What is in a list. -/
lemma Yields.nestAll_of_list {a : Option (List Char)}
    (h : Yields tags n [node true false] ts (⟨a,.sequenceStart⟩ :: bs) es' us) :
    nestAll [.list] (shapes bs) = some (frames es') := by
  generalize has : ⟨a,.sequenceStart⟩ :: bs = as at h
  cases h with
  | refl => cases has
  | @step _ _ _ more _ _ _ _ as₁ as₂ hstep hrest =>
    obtain ⟨used,-,hrule⟩ := rule_of_step hstep
    generalize List.head? _ = o at hrule
    cases hrule with
    | @opens ps a' t p ev next block _ o hps hopens =>
      obtain ⟨hev,rfl⟩ := List.cons.inj has
      cases hev
      have hnext : next.isNode = false ∧ next.isIndentless = false ∧ frames [next] = [.list] := by
        cases p <;> cases hopens <;> exact ⟨rfl,rfl,rfl⟩
      have hstacked : Stacked [next] := hnext.2.1
      rw [List.append_nil] at hrest
      have hall := hrest.nestAll_eq hstacked (by simpa using hnext.1)
      rwa [hnext.2.2] at hall
    | reference => cases has
    | scalar => cases has
    | omitted => cases has
    | absent hm => cases hm
    | present hm => cases hm
    | close o hclose => cases hclose

end Expected

lemma nestAll_of_firstEvents {ts us : List Token} {a : Option (List Char)} {bs : List Anchored}
    (h : firstEvents ts = (⟨a,.sequenceStart⟩ :: bs,some us)) : nestAll [.list] (Expected.shapes bs) = some [] := by
  obtain ⟨pre,body,tags,-,-,hcontent,-⟩ := exists_content h
  cases body with
  | nil => cases hcontent
  | cons t r =>
    rw [contentEvents] at hcontent
    split_ifs at hcontent
    · cases hcontent
    · obtain ⟨n,-,hyields⟩ := Expected.exists_yields hcontent
      exact hyields.nestAll_of_list

end Keyring.Yaml
