import Keyring.Proofs.Yaml.Sheet
import Keyring.Yaml.Document

/-! The events of lists of records. -/
namespace Keyring.Yaml

namespace Expected

/-- From what is expected and the tokens `ts`, as many steps as the number tells make the events and lead to what is
expected then and the tokens left. -/
inductive Yields (tags : Tags) : Nat → List Expected → List Token → List Anchored → List Expected → List Token → Prop
  | refl (es : List Expected) (ts : List Token) : Yields tags 0 es ts [] es ts
  | step {n : Nat} {e : Expected} {es more es' : List Expected} {ts us ts' : List Token} {as bs : List Anchored} :
      step tags e ts = some (as,more,us) → Yields tags n (more ++ es) us bs es' ts' →
      Yields tags (n+1) (e :: es) ts (as ++ bs) es' ts'

variable {tags : Tags}

lemma Yields.trans {n k : Nat} {es es' es'' : List Expected} {ts ts' ts'' : List Token} {as bs : List Anchored}
    (h : Yields tags n es ts as es' ts') (h' : Yields tags k es' ts' bs es'' ts'') :
    Yields tags (n+k) es ts (as ++ bs) es'' ts'' := by
  induction h with
  | refl => simpa using h'
  | step hs _ ih =>
    rw [List.append_assoc,Nat.add_right_comm]
    exact .step hs (ih h')

variable (tags) in
lemma Yields.single (e : Expected) (es : List Expected) (ts : List Token) {more : List Expected} {us : List Token}
    {as : List Anchored} (h : Expected.step tags e ts = some (as,more,us)) :
      Yields tags 1 (e :: es) ts as (more ++ es) us := by
  simpa using Yields.step h (.refl (more ++ es) us)

/-- The events of a run begin with those made on the way. -/
lemma run_of_yields {n : Nat} {es es' : List Expected} {ts ts' : List Token} {as : List Anchored}
    (h : Yields tags n es ts as es' ts') (k : Nat) :
    run tags (n+k) es ts = (as ++ (run tags k es' ts').1,(run tags k es' ts').2) := by
  induction h with
  | refl => simp
  | step hs _ ih =>
    rw [Nat.add_right_comm,run]
    simp only [hs,ih,List.append_assoc]

@[simp] lemma run_nil (n : Nat) (ts : List Token) : run tags n [] ts = ([],some ts) := by
  cases n <;> rfl

end Expected

def Field.events {ref : Type} (f : Field) : List (Event ref) :=
  [.scalar none f.name true,.scalar none f.text f.plain]

def Entry.events {ref : Type} (e : Entry) : List (Event ref) :=
  .mappingStart :: (e.first :: e.others).flatMap Field.events ++ [.mappingEnd]

lemma Entry.length_le_events (ref : Type) (es : List Entry) :
    es.length ≤ (es.flatMap Entry.events : List (Event ref)).length := by
  induction es with
  | nil => exact Nat.le_refl 0
  | cons e es ih =>
    simp only [List.flatMap_cons,List.length_append,List.length_cons,Entry.events]
    omega

/-- The list of the entries. -/
def Entry.list {ref : Type} (es : List Entry) : List (Event ref) :=
  .sequenceStart :: es.flatMap Entry.events ++ [.sequenceEnd]

/-- An event without an anchor. -/
def Anchored.bare (e : Event (List Char)) : Anchored := ⟨none,e⟩

namespace Expected

variable (tags : Tags)

lemma yields_field (f : Field) (es : List Expected) (ts : List Token) :
    Yields tags f.tokens.length (.blockKey :: es) (f.tokens ++ ts) (f.events.map .bare) (.blockKey :: es) ts := by
  have hkey := Yields.single tags .blockKey es (f.tokens ++ ts) rfl
  have hname := Yields.single tags (.node true true) (.blockValue :: es)
    (.scalar f.name true :: .value :: .scalar f.text f.plain :: ts) rfl
  have hvalue := Yields.single tags .blockValue es (.value :: .scalar f.text f.plain :: ts) rfl
  have htext := Yields.single tags (.node true true) (.blockKey :: es) (.scalar f.text f.plain :: ts) rfl
  exact ((hkey.trans hname).trans hvalue).trans htext

lemma yields_fields (fs : List Field) (es : List Expected) (ts : List Token) :
    Yields tags (fs.flatMap Field.tokens).length (.blockKey :: es) (fs.flatMap Field.tokens ++ ts)
      ((fs.flatMap Field.events).map .bare) (.blockKey :: es) ts := by
  induction fs with
  | nil => exact .refl _ _
  | cons f fs ih =>
    have h := (yields_field tags f es (fs.flatMap Field.tokens ++ ts)).trans ih
    simpa using h

/-- The mapping of an entry, behind its hyphen. -/
lemma yields_mapping (e : Entry) (es : List Expected) (ts : List Token) :
    Yields tags e.tokens.length (.node true false :: es) (e.tokens.tail ++ .blockEnd :: ts) (e.events.map .bare) es
      ts := by
  have hmapping := Yields.single tags (.node true false) es (e.tokens.tail ++ .blockEnd :: ts) rfl
  have hfields := yields_fields tags (e.first :: e.others) es (.blockEnd :: ts)
  have hend := Yields.single tags .blockKey es (.blockEnd :: ts) rfl
  have h := hmapping.trans (hfields.trans hend)
  have hn : e.tokens.length = 1+(((e.first :: e.others).flatMap Field.tokens).length+1) := by
    simp [Entry.tokens]
    omega
  rw [hn]
  simpa [Entry.tokens,Entry.events,Anchored.bare] using h

lemma yields_entry (e : Entry) (es : List Expected) (ts : List Token) :
    Yields tags (e.tokens.length+1) (.blockSequence :: es) (e.tokens ++ .blockEnd :: ts) (e.events.map .bare)
      (.blockSequence :: es) ts := by
  have hentry := Yields.single tags .blockSequence es (e.tokens ++ .blockEnd :: ts) rfl
  rw [Nat.add_comm]
  exact hentry.trans (yields_mapping tags e (.blockSequence :: es) ts)

lemma yields_entries (entries : List Entry) (es : List Expected) (ts : List Token) :
    Yields tags (entries.flatMap fun e => e.tokens ++ [.blockEnd]).length (.blockSequence :: es)
      ((entries.flatMap fun e => e.tokens ++ [.blockEnd]) ++ ts) ((entries.flatMap Entry.events).map .bare)
      (.blockSequence :: es) ts := by
  induction entries with
  | nil => exact .refl _ _
  | cons e entries ih =>
    have h := (yields_entry tags e es
      ((entries.flatMap fun e => e.tokens ++ [.blockEnd]) ++ ts)).trans ih
    have hn : ((e :: entries).flatMap fun e => e.tokens ++ [.blockEnd]).length =
        e.tokens.length+1+(entries.flatMap fun e => e.tokens ++ [.blockEnd]).length := by
      rw [List.flatMap_cons,List.length_append,List.length_append]
      rfl
    rw [hn]
    simpa using h

/-- The events of a list of entries, which takes in its tokens as a whole. -/
lemma events_entries (entries : List Entry) (ts : List Token) :
    events tags (.blockSequenceStart :: (entries.flatMap fun e => e.tokens ++ [.blockEnd]) ++ .blockEnd :: ts) =
      ((Entry.list entries).map .bare,some ts) := by
  generalize htokens : (entries.flatMap fun e => e.tokens ++ [.blockEnd]) = inner
  have hstart := Yields.single tags (.node true false) [] (.blockSequenceStart :: inner ++ .blockEnd :: ts) rfl
  have hentries := yields_entries tags entries [] (.blockEnd :: ts)
  have hend := Yields.single tags .blockSequence [] (.blockEnd :: ts) rfl
  rw [htokens] at hentries
  have h := hstart.trans (hentries.trans hend)
  have hfuel : ∃ k, 8*(.blockSequenceStart :: inner ++ Token.blockEnd :: ts).length+8 = 1+(inner.length+1)+k :=
    Nat.exists_eq_add_of_le (by simp; omega)
  obtain ⟨k,hk⟩ := hfuel
  rw [events,hk,run_of_yields h]
  simp [Entry.list,Anchored.bare]

end Expected

/-- The event with other names for the nodes that aliases refer to, if it is no alias. -/
def Event.named {ref : Type} : Event ref → Event Nat
  | .alias _ => .alias 0
  | .scalar tag text plain => .scalar tag text plain
  | .sequenceStart => .sequenceStart
  | .sequenceEnd => .sequenceEnd
  | .mappingStart => .mappingStart
  | .mappingEnd => .mappingEnd

def Event.isAlias {ref : Type} : Event ref → Bool
  | .alias _ => true
  | _ => false

lemma resolve_bare {es : List (Event (List Char))} (h : ∀ e ∈ es, e.isAlias = false)
    (names : List (List Char × Nat)) (places : List (Nat × Nat)) (position : Nat) :
    resolve names places position (es.map .bare) = (es.map Event.named,places,true) := by
  induction es generalizing position with
  | nil => rfl
  | cons e es ih =>
    have ih' := ih (fun e he => h e (List.mem_cons_of_mem _ he)) (position+1)
    have he := h e List.mem_cons_self
    rcases e with _ | _ | _ | _ | _ | _
    · cases he
    all_goals simp only [List.map_cons,Anchored.bare,resolve,ih',Event.named]

lemma Field.isAlias_of_mem (fs : List Field) {a : Event (List Char)} (ha : a ∈ fs.flatMap Field.events) :
    a.isAlias = false := by
  obtain ⟨f,-,ha⟩ := List.mem_flatMap.mp ha
  simp only [Field.events,List.mem_cons,List.not_mem_nil,or_false] at ha
  rcases ha with rfl | rfl <;> rfl

lemma Entry.isAlias_of_mem_events {e : Entry} {a : Event (List Char)} (ha : a ∈ e.events) : a.isAlias = false := by
  simp only [Entry.events,List.cons_append,List.mem_cons,List.mem_append,List.not_mem_nil,or_false] at ha
  rcases ha with rfl | ha | rfl
  · rfl
  · exact Field.isAlias_of_mem (e.first :: e.others) ha
  · rfl

lemma Entry.isAlias_of_mem (es : List Entry) {a : Event (List Char)} (ha : a ∈ Entry.list es) :
    a.isAlias = false := by
  simp only [Entry.list,List.cons_append,List.mem_cons,List.mem_append,List.not_mem_nil,or_false,
    List.mem_flatMap] at ha
  rcases ha with rfl | ⟨e,-,ha⟩ | rfl
  · rfl
  · exact Entry.isAlias_of_mem_events ha
  · rfl

lemma Field.map_named (fs : List Field) :
    (fs.flatMap (Field.events : Field → List (Event (List Char)))).map Event.named = fs.flatMap Field.events := by
  induction fs with
  | nil => rfl
  | cons f fs ih => simp [Field.events,Event.named,ih]

lemma Entry.map_named_events (e : Entry) : (e.events : List (Event (List Char))).map Event.named = e.events := by
  rw [Entry.events,Entry.events,List.map_append,List.map_cons,Field.map_named]
  rfl

lemma Entry.map_named (es : List Entry) :
    (Entry.list es : List (Event (List Char))).map Event.named = Entry.list es := by
  have hentries : (es.flatMap (Entry.events : Entry → List (Event (List Char)))).map Event.named =
      es.flatMap Entry.events := by
    induction es with
    | nil => rfl
    | cons e es ih => rw [List.flatMap_cons,List.map_append,ih,List.flatMap_cons,Entry.map_named_events]
  rw [Entry.list,List.map_append,List.map_cons,hentries]
  rfl

lemma Entry.isAlias_of_mem_tail (es : List Entry) {a : Event (List Char)}
    (ha : a ∈ es.flatMap Entry.events ++ [Event.sequenceEnd]) : a.isAlias = false :=
  Entry.isAlias_of_mem es (List.mem_cons_of_mem _ ha)

lemma Entry.map_named_tail (es : List Entry) :
    (es.flatMap Entry.events ++ [Event.sequenceEnd] : List (Event (List Char))).map Event.named =
      es.flatMap Entry.events ++ [Event.sequenceEnd] := (List.cons.inj (Entry.map_named es)).2

lemma Entry.map_bare_tail (es : List Entry) : (es.flatMap Entry.events).map Anchored.bare ++ [⟨none,.sequenceEnd⟩] =
    (es.flatMap Entry.events ++ [Event.sequenceEnd]).map .bare := by
  simp [Anchored.bare]

/-- The tokens of a list of entries are one document. -/
lemma Document.ofTokens_entries (es : List Entry) :
    Document.ofTokens (.blockSequenceStart :: es.flatMap (fun e => e.tokens ++ [.blockEnd]) ++
      [.blockEnd,.streamEnd]) = ⟨Entry.list es,[],true,true⟩ := by
  have hresolve := resolve_bare (fun a ha => Entry.isAlias_of_mem es ha) [] [] 0
  have hfirst : firstEvents (.blockSequenceStart :: es.flatMap (fun e => e.tokens ++ [.blockEnd]) ++
      [.blockEnd,.streamEnd]) = ((Entry.list es).map .bare,some [.streamEnd]) :=
    Expected.events_entries defaultTags es [.streamEnd]
  simp only [Document.ofTokens,hfirst,hresolve,Entry.map_named]
  rfl

/-- A text of entries is one document, the list of the entries. -/
theorem Document.ofSource_entries {es : List Entry} (hne : es ≠ []) :
    Document.ofSource ⟨es.flatMap Entry.text,[]⟩ = ⟨Entry.list es,[],true,true⟩ := by
  rw [Document.ofSource,tokens_entries hne,Document.ofTokens_entries]

end Keyring.Yaml
