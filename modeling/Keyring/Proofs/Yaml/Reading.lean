import Keyring.Proofs.Yaml.Frames
import Keyring.Yaml.Decode

/-! Lists with further items in place of their end. Reading an item takes one node and does not come to the end. -/
namespace Keyring.Yaml.Document

variable {α σ : Type} {d d' : Document} {F : Shape.Fields σ} {path : String} {s s' : σ} {w : Walk} {a : α}
  {rest r q z : List (Event Nat)} {j n m : Nat} {fs hs : List Frame}

lemma exists_of_bind {β : Type} {x : Read α} {f : α → Read β} {b : β} (h : x >>= f = .ok b) :
    ∃ a, x = .ok a ∧ f a = .ok b := by
  cases x with
  | error e => cases h
  | ok a => exact ⟨a,rfl,h⟩

section Nesting

/-- Reading takes a node of the innermost collection, and stops before what stands behind the collection's events. -/
def TakesNode (read : Walk → Read (α × Walk)) : Prop := ∀ r z j a w fs hs, r ≠ [] → hs.length ≤ fs.length →
  nestAll fs r = some hs → read ⟨r ++ z,j⟩ = .ok (a,w) → ∃ r', w.rest = r' ++ z ∧ nestAll (Frame.turn fs) r' = some hs

lemma ne_nil_of_nestAll {e : Event Nat} (h : nestAll fs (e :: r) = some hs) : fs ≠ [] := by
  rintro rfl
  cases h

lemma ne_nil_of_length {f : Frame} (h : nestAll (f :: fs) r = some hs) (hlength : hs.length ≤ fs.length) : r ≠ [] := by
  rintro rfl
  cases h
  simp at hlength

lemma nestAll_skip (gs : List Frame) (h : skip n (rest ++ z) = some r) (hgs : gs.length = n) (hn : n ≠ 0)
    (hlength : hs.length ≤ fs.length) (hrest : nestAll (gs ++ fs) rest = some hs) :
    ∃ r', r = r' ++ z ∧ nestAll fs r' = some hs := by
  induction rest generalizing n gs with
  | nil =>
    cases hrest
    rw [List.length_append] at hlength
    omega
  | cons e rest ih =>
    obtain ⟨g,gs,rfl⟩ := List.exists_cons_of_ne_nil (List.ne_nil_of_length_pos (hgs ▸ Nat.pos_of_ne_zero hn))
    have hne : g :: gs ++ fs ≠ [] := List.cons_ne_nil _ _
    have hleaf (he : e.nest (g :: gs ++ fs) = some (Frame.turn (g :: gs ++ fs))) (h : skip n (rest ++ z) = some r) :
        ∃ r', r = r' ++ z ∧ nestAll fs r' = some hs := by
      rw [nestAll_cons,he] at hrest
      exact ih (g.next :: gs) h hgs hn hrest
    have hstart {f : Frame} (he : e.nest (g :: gs ++ fs) = some (f :: Frame.turn (g :: gs ++ fs)))
        (h : skip (n+1) (rest ++ z) = some r) : ∃ r', r = r' ++ z ∧ nestAll fs r' = some hs := by
      rw [nestAll_cons,he] at hrest
      exact ih (f :: g.next :: gs) h (by simpa using hgs) (Nat.succ_ne_zero n) hrest
    have hend (he : e.nest (g :: gs ++ fs) = none ∨ e.nest (g :: gs ++ fs) = some (gs ++ fs))
        (h : (if n ≤ 1 then some (rest ++ z) else skip (n-1) (rest ++ z)) = some r) :
        ∃ r', r = r' ++ z ∧ nestAll fs r' = some hs := by
      rw [nestAll_cons] at hrest
      rcases he with he | he
      · rw [he] at hrest
        cases hrest
      · rw [he,Option.bind_some] at hrest
        split_ifs at h with hle
        · cases h
          have hnil : gs = [] := List.length_eq_zero_iff.mp (by simp at hgs; omega)
          rw [hnil] at hrest
          exact ⟨rest,rfl,hrest⟩
        · exact ih gs h (by simp at hgs; omega) (by omega) hrest
    rcases e with t | ⟨tag,t,p⟩ | _ | _ | _ | _
    · exact hleaf (nest_alias hne t) (by simpa [skip,hn] using h)
    · exact hleaf (nest_scalar hne tag t p) (by simpa [skip,hn] using h)
    · exact hstart (nest_sequenceStart hne) h
    · exact hend (by cases g <;> simp [Event.nest]) h
    · exact hstart (nest_mappingStart hne) h
    · exact hend (by cases g <;> simp [Event.nest]) h

lemma nestAll_skip_value (h : skip 0 (rest ++ z) = some r) (hlength : hs.length ≤ fs.length)
    (hrest : nestAll (.value :: fs) rest = some hs) : ∃ r', r = r' ++ z ∧ nestAll (.name :: fs) r' = some hs := by
  obtain ⟨e,rest,rfl⟩ := List.exists_cons_of_ne_nil (ne_nil_of_length hrest hlength)
  have hlength' : hs.length ≤ (Frame.name :: fs).length := Nat.le_succ_of_le hlength
  rw [nestAll_cons] at hrest
  rcases e with t | ⟨tag,t,p⟩ | _ | _ | _ | _
  · cases h
    exact ⟨rest,rfl,hrest⟩
  · cases h
    exact ⟨rest,rfl,hrest⟩
  · change skip 1 (rest ++ z) = some r at h
    exact nestAll_skip [.list] h rfl Nat.one_ne_zero hlength' hrest
  · cases hrest
  · change skip 1 (rest ++ z) = some r at h
    exact nestAll_skip [.name] h rfl Nat.one_ne_zero hlength' hrest
  · cases hrest

lemma takesNode_textHere (path : String) : TakesNode (textHere path) := by
  intro r z j a w fs hs hr _ hnest h
  obtain ⟨e,r,rfl⟩ := List.exists_cons_of_ne_nil hr
  have hne := ne_nil_of_nestAll hnest
  cases e with
  | scalar tag t p =>
    cases h
    rw [nestAll_cons,nest_scalar hne] at hnest
    exact ⟨r,rfl,hnest⟩
  | _ => cases h

lemma orAlias_of_ne {read : Walk → Read (α × Walk)} (h : ∀ target r, w.rest ≠ .alias target :: r) :
    d.orAlias read w = read w := by
  obtain ⟨rest,j⟩ := w
  cases rest with
  | nil => rfl
  | cons e rest =>
    rcases e with t | _ | _ | _ | _ | _
    · exact absurd rfl (h t rest)
    all_goals rfl

lemma exists_of_orAlias {read : Walk → Read (α × Walk)} {target : Nat}
    (h : d.orAlias read ⟨.alias target :: r,j⟩ = .ok (a,w)) :
    ∃ inner w', d.follow target ⟨.alias target :: r,j⟩ = .ok inner ∧ read inner = .ok (a,w') ∧ w = ⟨r,w'.jumps⟩ := by
  cases hfollow : d.follow target ⟨.alias target :: r,j⟩ with
  | error e => simp [orAlias,hfollow,bind,Except.bind] at h
  | ok inner =>
    cases hread : read inner with
    | error e => simp [orAlias,hfollow,hread,bind,Except.bind] at h
    | ok p =>
      obtain ⟨b,w'⟩ := p
      simp only [orAlias,hfollow,hread,bind,Except.bind] at h
      cases h
      exact ⟨inner,w',rfl,hread,rfl⟩

lemma takesNode_orAlias {read : Walk → Read (α × Walk)} (hread : TakesNode read) : TakesNode (d.orAlias read) := by
  intro r z j a w fs hs hr hlength hnest h
  by_cases halias : ∃ target r', r = .alias target :: r'
  · obtain ⟨target,r,rfl⟩ := halias
    obtain ⟨inner,w',-,-,rfl⟩ := exists_of_orAlias h
    rw [nestAll_cons,nest_alias (ne_nil_of_nestAll hnest)] at hnest
    exact ⟨r,rfl,hnest⟩
  · obtain ⟨e,r,rfl⟩ := List.exists_cons_of_ne_nil hr
    rw [orAlias_of_ne fun target r' hr' => halias ⟨target,r,by rw [(List.cons.inj hr').1]⟩] at h
    exact hread (e :: r) z j a w fs hs hr hlength hnest h

lemma takesNode_text (path : String) : TakesNode (d.text path) := takesNode_orAlias (takesNode_textHere path)

/-- How a field is named in messages about its value. -/
def shownName (name : String) : List (Event Nat) → String
  | .scalar _ _ _ :: _ => name
  | _ => "?"

/-- One field is read, or passed over. -/
inductive ReadsField (d : Document) (F : Shape.Fields σ) (path : String) : σ → Walk → σ → Walk → Prop
  | known {s s' : σ} {w v w' : Walk} {name value : String} :
    d.text path w = .ok (name,v) → F.seen? s name = some false →
      d.text (fieldPath path (shownName name w.rest)) v = .ok (value,w') → F.put s name value = .ok s' →
      ReadsField d F path s w s' w'
  | unknown {s : σ} {w v : Walk} {name : String} {r : List (Event Nat)} : d.text path w = .ok (name,v) →
      F.seen? s name = none → skip 0 v.rest = some r → ReadsField d F path s w s ⟨r,v.jumps⟩

lemma fields_succ (hend : ∀ r, w.rest ≠ .mappingEnd :: r) : d.fields F path (n+1) s w = (do
    let (name,v) ← d.text path w
    match F.seen? s name with
    | some true => .error ⟨path,.duplicateField name⟩
    | some false =>
      let (value,v) ← d.text (fieldPath path (shownName name w.rest)) v
      match F.put s name value with
      | .ok s => d.fields F path n s v
      | .error reason => .error ⟨path,.refused reason⟩
    | none => match skip 0 v.rest with
      | some r => d.fields F path n s ⟨r,v.jumps⟩
      | none => malformed) := by
  obtain ⟨rest,j⟩ := w
  cases rest with
  | nil => rfl
  | cons e r =>
    rcases e with _ | _ | _ | _ | _ | _
    case mappingEnd => exact absurd rfl (hend r)
    all_goals rfl

/-- The fields are read one after the other. -/
lemma fields_succ_iff (hend : ∀ r, w.rest ≠ .mappingEnd :: r) {w' : Walk} : d.fields F path (n+1) s w = .ok (s',w') ↔
    ∃ s₁ w₁, ReadsField d F path s w s₁ w₁ ∧ d.fields F path n s₁ w₁ = .ok (s',w') := by
  rw [fields_succ hend]
  constructor
  · intro h
    obtain ⟨⟨name,v⟩,htext,h⟩ := exists_of_bind h
    dsimp only at h
    split at h
    · cases h
    · next hseen =>
      obtain ⟨⟨value,v'⟩,hvalue,h⟩ := exists_of_bind h
      dsimp only at h
      split at h
      · next s₁ hput => exact ⟨s₁,v',.known htext hseen hvalue hput,h⟩
      · cases h
    · next hseen =>
      split at h
      · next r hskip => exact ⟨s,_,.unknown htext hseen hskip,h⟩
      · cases h
  · rintro ⟨s₁,w₁,hfield,h⟩
    cases hfield with
    | known htext hseen hvalue hput => simp only [htext,bind,Except.bind,hseen,hvalue,hput,h]
    | unknown htext hseen hskip => simp only [htext,bind,Except.bind,hseen,hskip,h]

lemma ReadsField.nestAll_eq {w' : Walk} (h : ReadsField d F path s w s' w') (hw : w.rest = r ++ z)
    (hlength : hs.length ≤ fs.length) (hr : nestAll (.name :: fs) r = some hs) :
    ∃ r', w'.rest = r' ++ z ∧ nestAll (.name :: fs) r' = some hs := by
  have hlength' (f : Frame) : hs.length ≤ (f :: fs).length := Nat.le_succ_of_le hlength
  obtain ⟨rest,j⟩ := w
  obtain rfl : rest = r ++ z := hw
  have hname {name : String} {v : Walk} (htext : d.text path ⟨r ++ z,j⟩ = .ok (name,v)) :
      ∃ r', v.rest = r' ++ z ∧ nestAll (.value :: fs) r' = some hs :=
    takesNode_text path _ _ _ _ _ _ _ (ne_nil_of_length hr hlength) (hlength' .name) hr htext
  cases h with
  | @known _ _ v _ name value htext hseen hvalue hput =>
    obtain ⟨r',hv,hr'⟩ := hname htext
    obtain ⟨rest,k⟩ := v
    obtain rfl : rest = r' ++ z := hv
    exact takesNode_text _ _ _ _ _ _ _ _ (ne_nil_of_length hr' hlength) (hlength' .value) hr' hvalue
  | unknown htext hseen hskip =>
    obtain ⟨r',hv,hr'⟩ := hname htext
    exact nestAll_skip_value (hv ▸ hskip) hlength hr'

lemma nestAll_fields {w' : Walk} (h : d.fields F path n s w = .ok (s',w')) (hw : w.rest = r ++ z)
    (hlength : hs.length ≤ fs.length) (hr : nestAll (.name :: fs) r = some hs) :
    ∃ r', w'.rest = r' ++ z ∧ nestAll fs r' = some hs := by
  induction n generalizing s w r with
  | zero => cases h
  | succ n ih =>
    by_cases hend : ∃ r', w.rest = .mappingEnd :: r'
    · obtain ⟨r',hr'⟩ := hend
      obtain ⟨e,r,rfl⟩ := List.exists_cons_of_ne_nil (ne_nil_of_length hr hlength)
      obtain ⟨rest,j⟩ := w
      obtain rfl : rest = .mappingEnd :: r' := hr'
      obtain ⟨rfl,rfl⟩ := List.cons.inj hw
      cases h
      exact ⟨r,rfl,hr⟩
    · obtain ⟨s₁,w₁,hfield,h⟩ := (fields_succ_iff fun r' hr' => hend ⟨r',hr'⟩).mp h
      obtain ⟨r',hw₁,hr'⟩ := hfield.nestAll_eq hw hlength hr
      exact ih h hw₁ hr'

lemma not_scalarKind (path : String) (tag : Option (List Char)) (text : List Char) (a : α) :
    ¬scalarKind path tag text = .ok a := by
  intro h
  unfold scalarKind at h
  dsimp only at h
  split at h <;> cases h

lemma takesNode_recordHere : TakesNode (d.recordHere F path) := by
  intro r z j a w fs hs hr hlength hnest h
  obtain ⟨e,r,rfl⟩ := List.exists_cons_of_ne_nil hr
  have hne := ne_nil_of_nestAll hnest
  unfold recordHere at h
  split at h
  · cases h
  · next r' hr' =>
    obtain ⟨rfl,rfl⟩ := List.cons.inj hr'
    rw [nestAll_cons,nest_mappingStart hne] at hnest
    refine nestAll_fields h rfl ?_ hnest
    obtain ⟨f,fs,rfl⟩ := List.exists_cons_of_ne_nil hne
    exact hlength
  · next r' hr' =>
    obtain ⟨rfl,rfl⟩ := List.cons.inj hr'
    cases h
    rw [nestAll_cons,nest_scalar hne] at hnest
    exact ⟨r,rfl,hnest⟩
  · exact (not_scalarKind _ _ _ _ h).elim
  · cases h

lemma takesNode_record : TakesNode (d.record F path) := takesNode_orAlias takesNode_recordHere

end Nesting

section Growth

/-- A text or a record does not begin where a list begins or ends. -/
def BeginsNode (read : Walk → Read (α × Walk)) : Prop := ∀ rest j a w, read ⟨rest,j⟩ = .ok (a,w) →
  ∃ e r, rest = e :: r ∧ e ≠ .sequenceStart ∧ e ≠ .sequenceEnd

/-- What is read before the end of a list is read in the same way before anything else, and as far. -/
def Carries (z : List (Event Nat)) (read read' : Walk → Read (α × Walk)) : Prop :=
  ∀ q j a w, read ⟨q ++ [.sequenceEnd],j⟩ = .ok (a,w) →
    ∃ q', w.rest = q' ++ [.sequenceEnd] ∧ read' ⟨q ++ z,j⟩ = .ok (a,⟨q' ++ z,w.jumps⟩)

lemma beginsNode_textHere (path : String) : BeginsNode (textHere path) := by
  intro rest j a w h
  unfold textHere at h
  split at h
  · cases h
  · next r hr => exact ⟨_,_,hr,by simp,by simp⟩
  · cases h

lemma carries_textHere (path : String) : Carries z (textHere path) (textHere path) := by
  intro q j a w h
  cases q with
  | nil => cases h
  | cons e q =>
    cases e with
    | scalar tag t p =>
      cases h
      exact ⟨q,rfl,rfl⟩
    | _ => cases h

/-- Of two documents that are lists, the second one has `z` in place of the first one's end. -/
structure Grows (d d' : Document) (z : List (Event Nat)) : Prop where
  ne_nil : z ≠ []
  events : ∃ r, d.events = .sequenceStart :: r ++ [.sequenceEnd] ∧ d'.events = .sequenceStart :: r ++ z
  places : d'.places = d.places

/-- An alias of the first document leads to the same node in the second one. -/
lemma Grows.follow (h : Grows d d' z) {target : Nat} {inner : Walk} (hfollow : d.follow target w = .ok inner)
    {e : Event Nat} (hinner : inner.rest = e :: r) (hstart : e ≠ .sequenceStart) (hend : e ≠ .sequenceEnd) :
    ∃ q, inner = ⟨q ++ [.sequenceEnd],w.jumps+1⟩ ∧ d'.follow target w = .ok ⟨q ++ z,w.jumps+1⟩ := by
  obtain ⟨l,hd,hd'⟩ := h.events
  have hz : 0 < z.length := List.length_pos_iff.mpr h.ne_nil
  unfold Document.follow at hfollow
  split_ifs at hfollow with hjumps
  · cases hfollow
  obtain rfl := Except.ok.inj hfollow
  change d.events.drop _ = e :: r at hinner
  cases hplace : d.places.lookup target with
  | none =>
    rw [hplace,Option.getD_none,List.drop_length] at hinner
    cases hinner
  | some p =>
    rw [hplace,Option.getD_some,hd] at hinner
    cases p with
    | zero =>
      obtain rfl := (List.cons.inj hinner).1
      exact absurd rfl hstart
    | succ p =>
      have hdrop (t : List (Event Nat)) (hp : p ≤ l.length) :
          (Event.sequenceStart :: l ++ t).drop (p+1) = l.drop p ++ t :=
        List.drop_append_of_le_length (Nat.succ_le_succ hp)
      have hp : p ≤ l.length := by
        by_contra hlt
        have hnil : (Event.sequenceStart :: l ++ [Event.sequenceEnd]).drop (p+1) = [] :=
          List.drop_eq_nil_of_le (by simp; omega)
        rw [hnil] at hinner
        cases hinner
      refine ⟨l.drop p,?_,?_⟩
      · rw [Option.getD_some,hd,hdrop _ hp]
      · have hjumps' : ¬100*d'.events.length < w.jumps+1 := by
          rw [hd] at hjumps
          rw [hd']
          simp only [List.length_append,List.length_cons,List.length_nil] at hjumps ⊢
          omega
        rw [Document.follow,if_neg hjumps',h.places,hplace,Option.getD_some,hd',hdrop _ hp]

lemma Grows.orAlias (h : Grows d d' z) {read read' : Walk → Read (α × Walk)} (hbegins : BeginsNode read)
    (hread : Carries z read read') : Carries z (d.orAlias read) (d'.orAlias read') := by
  intro q j a w hw
  by_cases halias : ∃ target r, q = .alias target :: r
  · obtain ⟨target,q,rfl⟩ := halias
    obtain ⟨⟨rest,k⟩,w',hfollow,hinner,rfl⟩ := exists_of_orAlias hw
    obtain ⟨e,r,rfl,hstart,hend⟩ := hbegins rest k a w' hinner
    obtain ⟨q',hq',hfollow'⟩ := h.follow hfollow rfl hstart hend
    rw [hq'] at hinner
    obtain ⟨q'',-,hread'⟩ := hread q' _ a w' hinner
    refine ⟨q,rfl,?_⟩
    have hfollow'' : d'.follow target ⟨.alias target :: (q ++ z),j⟩ = .ok ⟨q' ++ z,j+1⟩ := hfollow'
    simp only [List.cons_append,Document.orAlias,hfollow'',bind,Except.bind,hread']
  · have hne : ∀ target r, q ++ [.sequenceEnd] ≠ .alias target :: r := by
      intro target r hr
      cases q with
      | nil => cases hr
      | cons e q =>
        obtain rfl := (List.cons.inj hr).1
        exact halias ⟨target,q,rfl⟩
    rw [orAlias_of_ne hne] at hw
    obtain ⟨e,r,hr,-,hend⟩ := hbegins _ _ _ _ hw
    obtain ⟨q',hq',hread'⟩ := hread q j a w hw
    refine ⟨q',hq',?_⟩
    have hne' : ∀ target r, q ++ z ≠ .alias target :: r := by
      intro target r' hr'
      cases q with
      | nil =>
        obtain rfl := (List.cons.inj hr).1
        exact hend rfl
      | cons e' q =>
        obtain rfl := (List.cons.inj hr').1
        exact halias ⟨target,q,rfl⟩
    rw [orAlias_of_ne hne',hread']

lemma Grows.text (h : Grows d d' z) (path : String) : Carries z (d.text path) (d'.text path) :=
  h.orAlias (beginsNode_textHere path) (carries_textHere path)

lemma skip_append {q r : List (Event Nat)} (h : skip n (q ++ [.sequenceEnd]) = some r) :
    r = [] ∨ ∃ q', r = q' ++ [.sequenceEnd] ∧ skip n (q ++ z) = some (q' ++ z) := by
  induction q generalizing n with
  | nil =>
    refine Or.inl ?_
    change (if n ≤ 1 then some [] else skip (n-1) []) = some r at h
    split_ifs at h
    · exact (Option.some.inj h).symm
    · cases h
  | cons e q ih =>
    have hstop {p : Prop} [Decidable p] {k : Nat} (he : ∀ t, skip n (e :: t) = if p then some t else skip k t) :
        r = [] ∨ ∃ q', r = q' ++ [.sequenceEnd] ∧ skip n (e :: q ++ z) = some (q' ++ z) := by
      rw [List.cons_append,he] at h
      rw [List.cons_append,he]
      split_ifs at h ⊢
      · exact Or.inr ⟨q,(Option.some.inj h).symm,rfl⟩
      · exact ih h
    rcases e with _ | _ | _ | _ | _ | _
    · exact hstop fun t => rfl
    · exact hstop fun t => rfl
    · exact ih (n := n+1) h
    · exact hstop fun t => rfl
    · exact ih (n := n+1) h
    · exact hstop fun t => rfl

lemma beginsNode_orAlias {read : Walk → Read (α × Walk)} (hread : BeginsNode read) : BeginsNode (d.orAlias read) := by
  intro rest j a w h
  by_cases halias : ∃ target r, rest = .alias target :: r
  · obtain ⟨target,r,rfl⟩ := halias
    exact ⟨_,r,rfl,by simp,by simp⟩
  · rw [orAlias_of_ne fun target r hr => halias ⟨target,r,hr⟩] at h
    exact hread rest j a w h

lemma ReadsField.begins {w' : Walk} (h : ReadsField d F path s w s' w') :
    ∃ e r, w.rest = e :: r ∧ e ≠ .sequenceStart ∧ e ≠ .sequenceEnd := by
  have htext {name : String} {v : Walk} (h : d.text path w = .ok (name,v)) :=
    beginsNode_orAlias (beginsNode_textHere path) w.rest w.jumps name v h
  cases h with
  | known h => exact htext h
  | unknown h => exact htext h

lemma shownName_append {e : Event Nat} (name : String) (t u : List (Event Nat)) :
    shownName name (e :: t) = shownName name (e :: u) := by
  rcases e with _ | _ | _ | _ | _ | _ <;> rfl

/-- A field that is not the last thing read. -/
lemma Grows.readsField (h : Grows d d' z) (hw : ReadsField d F path s ⟨q ++ [.sequenceEnd],j⟩ s' w)
    (hne : w.rest ≠ []) :
    ∃ q', w.rest = q' ++ [.sequenceEnd] ∧ ReadsField d' F path s ⟨q ++ z,j⟩ s' ⟨q' ++ z,w.jumps⟩ := by
  obtain ⟨e,r,hr,-,hend⟩ := hw.begins
  cases q with
  | nil =>
    obtain rfl := (List.cons.inj hr).1
    exact absurd rfl hend
  | cons e q =>
    cases hw with
    | @known _ _ v _ name value htext hseen hvalue hput =>
      obtain ⟨rest,k⟩ := v
      obtain ⟨q₁,rfl,htext'⟩ := h.text path _ _ _ _ htext
      obtain ⟨q₂,hq₂,hvalue'⟩ := h.text _ _ _ _ _ hvalue
      refine ⟨q₂,hq₂,.known htext' hseen ?_ hput⟩
      change d'.text (fieldPath path (shownName name (e :: (q ++ z)))) _ = _
      rw [shownName_append name (q ++ z) (q ++ [.sequenceEnd])]
      exact hvalue'
    | @unknown _ v name r' htext hseen hskip =>
      obtain ⟨rest,k⟩ := v
      obtain ⟨q₁,rfl,htext'⟩ := h.text path _ _ _ _ htext
      rcases skip_append (z := z) hskip with hnil | ⟨q₂,rfl,hskip'⟩
      · exact absurd hnil hne
      · exact ⟨q₂,rfl,.unknown (v := ⟨q₁ ++ z,k⟩) htext' hseen hskip'⟩

lemma fields_nil (n : Nat) : d.fields F path n s ⟨[],j⟩ = malformed := by
  cases n <;> rfl

/-- The fields of a record are read up to its end. -/
lemma Grows.fields (h : Grows d d' z) (hw : d.fields F path n s ⟨q ++ [.sequenceEnd],j⟩ = .ok (s',w)) (hm : n ≤ m) :
    ∃ q', w.rest = q' ++ [.sequenceEnd] ∧ d'.fields F path m s ⟨q ++ z,j⟩ = .ok (s',⟨q' ++ z,w.jumps⟩) := by
  induction n generalizing m q j s with
  | zero => cases hw
  | succ n ih =>
    obtain ⟨m,rfl⟩ := Nat.exists_eq_succ_of_ne_zero (Nat.ne_of_gt (Nat.zero_lt_of_lt hm))
    by_cases hend : ∃ r, q = .mappingEnd :: r
    · obtain ⟨q,rfl⟩ := hend
      cases hw
      exact ⟨q,rfl,rfl⟩
    · have hend₁ : ∀ r, q ++ [.sequenceEnd] ≠ .mappingEnd :: r := by
        intro r hr
        cases q with
        | nil => cases hr
        | cons e q =>
          obtain rfl := (List.cons.inj hr).1
          exact hend ⟨q,rfl⟩
      obtain ⟨s₁,⟨rest,k⟩,hfield,hw⟩ := (fields_succ_iff hend₁).mp hw
      have hne : rest ≠ [] := by
        rintro rfl
        rw [fields_nil] at hw
        cases hw
      obtain ⟨q₁,rfl,hfield'⟩ := h.readsField hfield hne
      obtain ⟨q',hq',hw'⟩ := ih hw (Nat.le_of_succ_le_succ hm)
      refine ⟨q',hq',(fields_succ_iff fun r hr => ?_).mpr ⟨s₁,_,hfield',hw'⟩⟩
      obtain ⟨e,r',hr',-,hne'⟩ := hfield.begins
      cases q with
      | nil =>
        obtain rfl := (List.cons.inj hr').1
        exact hne' rfl
      | cons e' q =>
        obtain rfl := (List.cons.inj hr).1
        exact hend ⟨q,rfl⟩

lemma beginsNode_recordHere : BeginsNode (d.recordHere F path) := by
  intro rest j a w h
  unfold recordHere at h
  split at h
  · cases h
  · next r hr => exact ⟨_,r,hr,by simp,by simp⟩
  · next r hr => exact ⟨_,r,hr,by simp,by simp⟩
  · exact (not_scalarKind _ _ _ _ h).elim
  · cases h

lemma Grows.recordHere (h : Grows d d' z) : Carries z (d.recordHere F path) (d'.recordHere F path) := by
  intro q j a w hw
  cases q with
  | nil => cases hw
  | cons e q =>
    unfold Document.recordHere at hw
    split at hw
    · cases hw
    · next r hr =>
      obtain ⟨rfl,rfl⟩ := List.cons.inj hr
      have hz : 1 ≤ z.length := List.length_pos_iff.mpr h.ne_nil
      have hlength : (q ++ [Event.sequenceEnd]).length+1 ≤ (q ++ z).length+1 := by simpa using hz
      exact h.fields hw hlength
    · next r hr =>
      obtain ⟨rfl,rfl⟩ := List.cons.inj hr
      cases hw
      exact ⟨q,rfl,rfl⟩
    · exact (not_scalarKind _ _ _ _ hw).elim
    · cases hw

lemma Grows.record (h : Grows d d' z) : Carries z (d.record F path) (d'.record F path) :=
  h.orAlias beginsNode_recordHere h.recordHere

/-- Further items in place of the end of a list are read behind those that were there. -/
lemma items_append {item item' : String → Walk → Read (α × Walk)} (hnode : ∀ i, TakesNode (item (itemPath i)))
    (hcarries : ∀ i, Carries z (item (itemPath i)) (item' (itemPath i))) {as bs : List α} {k : Nat}
    (hz : ∀ i j m, k < m → ∃ w, items item' m i ⟨z,j⟩ = .ok (bs,w)) {i : Nat}
    (hq : nestAll [.list] (q ++ [.sequenceEnd]) = some []) (h : items item n i ⟨q ++ [.sequenceEnd],j⟩ = .ok (as,w))
    (hm : n+k ≤ m) : ∃ w, items item' m i ⟨q ++ z,j⟩ = .ok (as ++ bs,w) := by
  induction n generalizing m q i j as with
  | zero => cases h
  | succ n ih =>
    cases q with
    | nil =>
      cases h
      exact hz i j m (by omega)
    | cons e q =>
      obtain ⟨m,rfl⟩ := Nat.exists_eq_succ_of_ne_zero (n := m) (by omega)
      have hend (z r : List (Event Nat)) : e :: (q ++ z) ≠ .sequenceEnd :: r := by
        intro heq
        obtain rfl := (List.cons.inj heq).1
        cases q <;> cases hq
      rw [List.cons_append,items_succ (hend _)] at h
      obtain ⟨⟨a,⟨rest,j'⟩⟩,hread,h⟩ := exists_of_bind h
      obtain ⟨⟨l,w'⟩,hitems,h⟩ := exists_of_bind h
      cases h
      obtain ⟨q',rfl,hread'⟩ := hcarries i (e :: q) j a _ hread
      obtain ⟨r',hr',hq'⟩ := hnode i (e :: (q ++ [.sequenceEnd])) [] j a _ _ _ (List.cons_ne_nil _ _) (Nat.zero_le _) hq
        (by rw [List.append_nil]; exact hread)
      rw [List.append_nil] at hr'
      obtain rfl : q' ++ [Event.sequenceEnd] = r' := hr'
      obtain ⟨w'',hitems'⟩ := ih hq' hitems (m := m) (by omega)
      refine ⟨w'',?_⟩
      rw [List.cons_append] at hread' ⊢
      rw [items_succ (hend z)]
      simp only [hread',bind,Except.bind,hitems',List.cons_append]

end Growth

/-- Items are read up to where one begins, and from there on. -/
lemma items_split {item : String → Walk → Read (α × Walk)} (hnode : ∀ i, TakesNode (item (itemPath i))) {i : Nat}
    {l : List α} (h : items item n i ⟨r ++ z,j⟩ = .ok (l,w)) (hr : nestAll [.list] r = some [.list]) :
    ∃ m k j' as bs, l = as ++ bs ∧ items item m k ⟨z,j'⟩ = .ok (bs,w) := by
  induction n generalizing i j r l with
  | zero => cases h
  | succ n ih =>
    cases r with
    | nil => exact ⟨n+1,i,j,[],l,rfl,h⟩
    | cons e r =>
      have hend (r' : List (Event Nat)) : e :: (r ++ z) ≠ .sequenceEnd :: r' := by
        intro heq
        obtain rfl := (List.cons.inj heq).1
        cases r <;> cases hr
      rw [List.cons_append,items_succ hend] at h
      obtain ⟨⟨a,⟨rest,j'⟩⟩,hread,h⟩ := exists_of_bind h
      obtain ⟨⟨l',w'⟩,hitems,h⟩ := exists_of_bind h
      cases h
      obtain ⟨r',hr',hnest⟩ := hnode i (e :: r) z j a _ _ _ (List.cons_ne_nil e r) (Nat.le_refl _) hr hread
      obtain rfl : rest = r' ++ z := hr'
      obtain ⟨m,k,j'',as,bs,rfl,hbs⟩ := ih hitems hnest
      exact ⟨m,k,j'',a :: as,bs,rfl,hbs⟩

end Keyring.Yaml.Document
