import Keyring.Yaml.Lexeme.Line
import Mathlib

/-! Texts with more text behind them. What a reader takes from a text within a line, it takes as well where more
text follows, if the last line of the text is ended. -/
namespace Keyring.Yaml

/-- Whether the last line of the text `r` is ended, by its last character or by the text `y` behind it. -/
def Sealed (y r : List Char) : Prop := y.head? = some '\n' ∨ r.getLast? = some '\n'

namespace Sealed

variable {y r : List Char} {c : Char}

lemma exists_of_nil (h : Sealed y []) : ∃ y', y = '\n' :: y' := by
  rcases h with h | h
  · exact List.head?_eq_some_iff.mp h
  · cases h

/-- A part at the end is sealed, unless the last line is ended by what stands before. -/
lemma of_suffix {r' : List Char} (h : Sealed y r) (hs : r' <:+ r) (hne : r' = [] → r.getLast? ≠ some '\n') :
    Sealed y r' := by
  rcases h with h | h
  · exact Or.inl h
  · obtain ⟨p,rfl⟩ := hs
    have hr' : r' ≠ [] := fun hr' => hne hr' h
    rw [List.getLast?_append_of_ne_nil p hr'] at h
    exact Or.inr h

lemma tail (h : Sealed y (c :: r)) (hc : c ≠ '\n') : Sealed y r := by
  refine h.of_suffix (List.suffix_cons c r) ?_
  rintro rfl hl
  cases hl
  exact hc rfl

variable {p : Char → Bool}

lemma dropWhile (hp : p '\n' = false) (h : Sealed y r) : Sealed y (r.dropWhile p) := by
  induction r with
  | nil => exact h
  | cons c r ih =>
    by_cases hc : p c = true
    · rw [List.dropWhile_cons_of_pos hc]
      refine ih (h.tail ?_)
      rintro rfl
      rw [hc] at hp
      cases hp
    · rwa [List.dropWhile_cons_of_neg hc]

lemma takeWhile_append (hp : p '\n' = false) (h : Sealed y r) : (r ++ y).takeWhile p = r.takeWhile p := by
  induction r with
  | nil =>
    obtain ⟨y,rfl⟩ := h.exists_of_nil
    simp [hp]
  | cons c r ih =>
    by_cases hc : p c = true
    · have hne : c ≠ '\n' := by
        rintro rfl
        rw [hc] at hp
        cases hp
      rw [List.cons_append,List.takeWhile_cons_of_pos hc,List.takeWhile_cons_of_pos hc,ih (h.tail hne)]
    · rw [List.cons_append,List.takeWhile_cons_of_neg hc,List.takeWhile_cons_of_neg hc]

lemma dropWhile_append (hp : p '\n' = false) (h : Sealed y r) :
    (r ++ y).dropWhile p = r.dropWhile p ++ y := by
  have hsplit := List.takeWhile_append_dropWhile (p := p) (l := r ++ y)
  have hsplit' := List.takeWhile_append_dropWhile (p := p) (l := r)
  rw [h.takeWhile_append hp] at hsplit
  refine List.append_cancel_left (hsplit.trans ?_)
  rw [← List.append_assoc,hsplit']

lemma atSpace_append (h : Sealed y r) : atSpace (r ++ y) = atSpace r := by
  cases r with
  | nil =>
    obtain ⟨y,rfl⟩ := h.exists_of_nil
    rfl
  | cons c r => rfl

/-- No character but a line feed is first behind a sealed text. -/
lemma head?_append (h : Sealed y r) : (r ++ y).head? = r.head? ∨ r = [] ∧ (r ++ y).head? = some '\n' := by
  cases r with
  | nil =>
    obtain ⟨y,rfl⟩ := h.exists_of_nil
    exact Or.inr ⟨rfl,rfl⟩
  | cons c r => exact Or.inl rfl

lemma head?_append_eq_iff (h : Sealed y r) (hc : c ≠ '\n') : (r ++ y).head? = some c ↔ r.head? = some c := by
  rcases h.head?_append with h' | ⟨rfl,h'⟩
  · rw [h']
  · rw [h']
    simpa using Ne.symm hc

lemma cons_of_append {t : List Char} (h : Sealed y r) (hc : c ≠ '\n') (ht : r ++ y = c :: t) :
    ∃ r', r = c :: r' ∧ Sealed y r' ∧ r' ++ y = t := by
  have hhead := (h.head?_append_eq_iff hc).mp (by rw [ht]; rfl)
  obtain ⟨r',rfl⟩ := List.head?_eq_some_iff.mp hhead
  exact ⟨r',rfl,h.tail hc,List.tail_eq_of_cons_eq ht⟩

lemma isDocumentMark_append (h : Sealed y r) : isDocumentMark (r ++ y) = isDocumentMark r := by
  have hmark {c : Char} {t : List Char} (hc : c ≠ '\n') (ht : r ++ y = c :: c :: c :: t) :
      ∃ r', r = c :: c :: c :: r' ∧ atSpace t = atSpace r' := by
    obtain ⟨r₁,rfl,h₁,ht⟩ := h.cons_of_append hc ht
    obtain ⟨r₂,rfl,h₂,ht⟩ := h₁.cons_of_append hc ht
    obtain ⟨r₃,rfl,h₃,rfl⟩ := h₂.cons_of_append hc ht
    exact ⟨r₃,rfl,h₃.atSpace_append⟩
  have hmark' {c : Char} {t : List Char} (hc : c ≠ '\n') (ht : r = c :: c :: c :: t) :
      atSpace (t ++ y) = atSpace t := by
    subst ht
    exact (((h.tail hc).tail hc).tail hc).atSpace_append
  conv => lhs; unfold isDocumentMark
  split
  · next t ht =>
    obtain ⟨r',rfl,hspace⟩ := hmark (by decide) ht
    exact hspace
  · next t ht =>
    obtain ⟨r',rfl,hspace⟩ := hmark (by decide) ht
    exact hspace
  · next hhyphen hdot =>
    unfold isDocumentMark
    split
    · exact absurd rfl (hhyphen _)
    · exact absurd rfl (hdot _)
    · rfl

end Sealed

/-- A reader that takes the same from a sealed text, whether or not the text `y` stands behind it. -/
def IsLocal {α : Type} (y : List Char) (f : List Char → Option (α × List Char)) : Prop :=
  ∀ ⦃r : List Char⦄ ⦃v : α⦄ ⦃r' : List Char⦄, Sealed y r → f r = some (v,r') →
    r' <:+ r ∧ Sealed y r' ∧ f (r ++ y) = some (v,r' ++ y)

lemma before_eq_some_iff {α : Type} {t : List Char} {o : Option (List Char × α)} {v : List Char} {a : α} :
    before t o = some (v,a) ↔ ∃ u, o = some (u,a) ∧ v = t ++ u := by
  cases o with
  | none => simp [before]
  | some p =>
    obtain ⟨u,b⟩ := p
    simp only [before,Option.map_some,Option.some.injEq,Prod.mk.injEq]
    constructor
    · rintro ⟨rfl,rfl⟩
      exact ⟨u,⟨rfl,rfl⟩,rfl⟩
    · rintro ⟨u',⟨rfl,rfl⟩,rfl⟩
      exact ⟨rfl,rfl⟩

namespace Line

variable {y : List Char}

lemma isLocal_name : IsLocal y name := by
  intro r v r' h hr
  have hword : isWord '\n' = false := by decide
  simp only [name] at hr ⊢
  rw [h.takeWhile_append hword,h.dropWhile_append hword]
  have hrest := h.dropWhile hword
  split_ifs at hr with hempty hend
  cases hr
  refine ⟨List.dropWhile_suffix _,hrest,?_⟩
  rw [if_neg hempty,if_pos]
  rw [hrest.atSpace_append]
  rcases hend with hend | hend
  · exact Or.inl hend
  · cases hd : r.dropWhile isWord with
    | nil => exact Or.inl rfl
    | cons c t =>
      rw [hd] at hend
      exact Or.inr hend

lemma octet?_eq_some {r r' : List Char} {n : Nat} (h : octet? r = some (n,r')) :
    ∃ a b, r = '%' :: a :: b :: r' ∧ a ≠ '\n' ∧ b ≠ '\n' ∧ ∀ t, octet? ('%' :: a :: b :: t) = some (n,t) := by
  unfold octet? at h
  split at h
  · next a b r₀ =>
    simp only [Option.bind_eq_bind,Option.bind_eq_some_iff,Option.some.injEq,Prod.mk.injEq] at h
    obtain ⟨high,hhigh,low,hlow,rfl,rfl⟩ := h
    refine ⟨a,b,rfl,?_,?_,fun t => ?_⟩
    · rintro rfl
      cases hhigh
    · rintro rfl
      cases hlow
    · simp [octet?,hhigh,hlow]
  · cases h

lemma isLocal_octet? : IsLocal y octet? := by
  intro r n r' h hr
  obtain ⟨a,b,rfl,ha,hb,heq⟩ := octet?_eq_some hr
  exact ⟨⟨['%',a,b],rfl⟩,((h.tail (by decide)).tail ha).tail hb,heq (r' ++ y)⟩

lemma isLocal_octets (n : Nat) : IsLocal y (octets n) := by
  induction n with
  | zero =>
    intro r v r' h hr
    cases hr
    exact ⟨List.suffix_refl _,h,rfl⟩
  | succ n ih =>
    intro r v r' h hr
    simp only [octets,Option.bind_eq_bind,Option.bind_eq_some_iff] at hr
    obtain ⟨⟨o,r₁⟩,ho,hr⟩ := hr
    obtain ⟨hs,h₁,ho'⟩ := isLocal_octet? h ho
    split_ifs at hr with hrange
    obtain ⟨u,hu,rfl⟩ := before_eq_some_iff.mp hr
    obtain ⟨hs',h',hu'⟩ := ih h₁ hu
    refine ⟨hs'.trans hs,h',?_⟩
    simp [octets,ho',hrange,hu',before]

/-- An escaped character is an octet and those that follow it, whose number it tells. -/
lemma escapes_eq_some {r v r' : List Char} (h : escapes r = some (v,r')) :
    ∃ o r₁ n, octet? r = some (o,r₁) ∧ before [Char.ofNat o] (octets n r₁) = some (v,r') ∧
      ∀ t t', octet? t = some (o,t') → escapes t = before [Char.ofNat o] (octets n t') := by
  unfold escapes at *
  simp only [Option.bind_eq_bind,Option.bind_eq_some_iff] at h
  obtain ⟨⟨o,r₁⟩,ho,h⟩ := h
  split_ifs at h with h₁ h₂ h₃ h₄
  · refine ⟨o,r₁,0,ho,h,fun t t' ht => ?_⟩
    simp [ht,h₁]
  · refine ⟨o,r₁,1,ho,h,fun t t' ht => ?_⟩
    simp [ht,h₁,h₂]
  · refine ⟨o,r₁,2,ho,h,fun t t' ht => ?_⟩
    simp [ht,h₁,h₂,h₃]
  · refine ⟨o,r₁,3,ho,h,fun t t' ht => ?_⟩
    simp [ht,h₁,h₂,h₃,h₄]
  · cases h

lemma isLocal_escapes : IsLocal y escapes := by
  intro r v r' h hr
  obtain ⟨o,r₁,n,ho,hn,heq⟩ := escapes_eq_some hr
  obtain ⟨u,hu,rfl⟩ := before_eq_some_iff.mp hn
  obtain ⟨hs,h₁,ho'⟩ := isLocal_octet? h ho
  obtain ⟨hs',h',hu'⟩ := isLocal_octets n h₁ hu
  refine ⟨hs'.trans hs,h',?_⟩
  rw [heq _ _ ho',hu']
  rfl

/-- The characters of a tag are read the same with any fuel that suffices. -/
lemma uriFrom_append {bracketed : Bool} {n k : Nat} {r v r' : List Char} (h : Sealed y r) (hn : r.length < n)
    (hk : n ≤ k) (hr : uriFrom bracketed n r = some (v,r')) :
    r' <:+ r ∧ Sealed y r' ∧ uriFrom bracketed k (r ++ y) = some (v,r' ++ y) := by
  induction n generalizing k r v with
  | zero => omega
  | succ n ih =>
    obtain ⟨k,rfl⟩ := Nat.exists_eq_add_of_le' (Nat.le_trans (Nat.succ_pos n) hk)
    match r with
    | [] =>
      obtain ⟨y,rfl⟩ := h.exists_of_nil
      cases hr
      have hlf : isUri bracketed '\n' = false := by cases bracketed <;> decide
      exact ⟨List.suffix_refl _,h,by simp [uriFrom,hlf]⟩
    | c :: r =>
      rw [uriFrom] at hr
      rw [List.cons_append,uriFrom]
      split_ifs at hr ⊢ with huri hpercent
      · cases hr
        exact ⟨List.suffix_refl _,h,rfl⟩
      · simp only [Option.bind_eq_bind,Option.bind_eq_some_iff] at hr
        obtain ⟨⟨x,r₁⟩,hx,hr⟩ := hr
        obtain ⟨hs,h₁,hx'⟩ := isLocal_escapes h hx
        obtain ⟨u,hu,rfl⟩ := before_eq_some_iff.mp hr
        have hlt : r₁.length < (c :: r).length := by
          obtain ⟨o,r₂,count,ho,hx,-⟩ := escapes_eq_some hx
          obtain ⟨a,b,heq,-⟩ := octet?_eq_some ho
          obtain ⟨u,hu,-⟩ := before_eq_some_iff.mp hx
          have hle := (isLocal_octets (y := ['\n']) count (Or.inl rfl) hu).1.length_le
          rw [heq]
          simp only [List.length_cons]
          omega
        simp only [List.length_cons] at hn hlt
        obtain ⟨hs',h',hu'⟩ := ih (k := k) h₁ (by omega) (by omega) hu
        refine ⟨hs'.trans hs,h',?_⟩
        rw [List.cons_append] at hx'
        simp [hx',hu',before]
      · obtain ⟨u,hu,rfl⟩ := before_eq_some_iff.mp hr
        have hc : c ≠ '\n' := by
          rintro rfl
          exact huri (by cases bracketed <;> decide)
        simp only [List.length_cons] at hn
        obtain ⟨hs',h',hu'⟩ := ih (k := k) (h.tail hc) (by omega) (by omega) hu
        exact ⟨hs'.trans (List.suffix_cons c r),h',by simp [hu',before]⟩

lemma isLocal_uri (bracketed : Bool) : IsLocal y (uri bracketed) :=
  fun _ _ _ h hr => uriFrom_append h (Nat.lt_succ_self _) (by simp) hr

lemma isLocal_handle : IsLocal y handle := by
  intro r v r' h hr
  have hword : isWord '\n' = false := by decide
  unfold handle at hr
  split at hr
  · next r =>
    have h₁ := h.tail (by decide : '!' ≠ '\n')
    have hrest := h₁.dropWhile hword
    simp only [handle,List.cons_append,h₁.takeWhile_append hword,h₁.dropWhile_append hword]
    have hsuffix : r.dropWhile isWord <:+ '!' :: r := (List.dropWhile_suffix _).trans (List.suffix_cons '!' r)
    generalize r.dropWhile isWord = t at *
    dsimp only at hr
    split at hr
    · cases hr
      exact ⟨(List.suffix_cons '!' _).trans hsuffix,hrest.tail (by decide),rfl⟩
    · next hne =>
      cases hr
      refine ⟨hsuffix,hrest,?_⟩
      split
      · next t' heq =>
        have hhead := (hrest.head?_append_eq_iff (c := '!') (by decide)).mp (by rw [heq]; rfl)
        obtain ⟨t'',rfl⟩ := List.head?_eq_some_iff.mp hhead
        exact absurd rfl (hne t'')
      · rfl
  · cases hr

/-- What follows a tag tells whether it ends there. -/
def tagEnd (flow : Bool) (handle suffix : List Char) (rest : List Char) : Option (Token × List Char) :=
  if atSpace rest ∨ flow ∧ rest.head? = some ',' then some (.tag handle suffix,rest) else none

lemma isLocal_tagEnd (flow : Bool) (handle suffix : List Char) : IsLocal y (tagEnd flow handle suffix) := by
  intro r v r' h hr
  simp only [tagEnd,h.atSpace_append,h.head?_append_eq_iff (by decide : ',' ≠ '\n')] at hr ⊢
  split_ifs at hr with hend
  cases hr
  exact ⟨List.suffix_refl r,h,if_pos hend⟩

def verbatimTag (flow : Bool) (text rest : List Char) : Option (Token × List Char) :=
  match text,rest with
  | _ :: _,'>' :: r => tagEnd flow [] (upToNul text) r
  | _,_ => none

lemma isLocal_verbatimTag (flow : Bool) (text : List Char) : IsLocal y (verbatimTag flow text) := by
  intro r v r' h hr
  unfold verbatimTag at hr
  split at hr
  · next r =>
    obtain ⟨hs,h',hr'⟩ := isLocal_tagEnd flow [] _ (h.tail (by decide)) hr
    exact ⟨hs.trans (List.suffix_cons _ r),h',hr'⟩
  · cases hr

lemma verbatimTag_of_ne {flow : Bool} {text rest : List Char}
    (h : ∀ c text' r, text = c :: text' → rest ≠ '>' :: r) : verbatimTag flow text rest = none := by
  unfold verbatimTag
  split
  · exact absurd rfl (h _ _ _ rfl)
  · rfl

def shorthandTag (flow : Bool) (handle text : List Char) : List Char → Option (Token × List Char) :=
  if handle.length ≥ 2 ∧ handle.getLast? = some '!' then
    if text = [] then fun _ => none else tagEnd flow handle (upToNul text)
  else
    let text := upToNul (handle.tail ++ text)
    if text = [] then tagEnd flow [] ['!'] else tagEnd flow ['!'] text

lemma isLocal_shorthandTag (flow : Bool) (handle text : List Char) : IsLocal y (shorthandTag flow handle text) := by
  unfold shorthandTag
  dsimp only
  split_ifs
  · exact fun _ _ _ _ hr => by cases hr
  · exact isLocal_tagEnd ..
  · exact isLocal_tagEnd ..
  · exact isLocal_tagEnd ..

lemma tag_verbatim (flow : Bool) (rest : List Char) : tag flow ('!' :: '<' :: rest) =
    (uri true rest).bind fun p => verbatimTag flow p.1 p.2 := by
  unfold tag
  refine congrArg (Option.bind _) (funext fun p => ?_)
  obtain ⟨text,r⟩ := p
  dsimp only
  split
  · rfl
  · next hne =>
    rw [verbatimTag_of_ne hne]
    rfl

lemma tag_shorthand (flow : Bool) {rest : List Char} (h : ∀ r, rest ≠ '!' :: '<' :: r) : tag flow rest =
    (handle rest).bind fun p => (uri false p.2).bind fun q => shorthandTag flow p.1 q.1 q.2 := by
  unfold tag shorthandTag
  split
  · next r => exact absurd rfl (h r)
  · refine congrArg (Option.bind _) (funext fun p => congrArg (Option.bind _) (funext fun q => ?_))
    dsimp only
    split_ifs <;> rfl

lemma exists_of_tag {flow : Bool} {t : Token} {r r' : List Char} (h : tag flow r = some (t,r')) :
    ∃ handle suffix, t = .tag handle suffix := by
  have hend {handle suffix r : List Char} (h : tagEnd flow handle suffix r = some (t,r')) :
      ∃ handle suffix, t = .tag handle suffix := by
    unfold tagEnd at h
    split_ifs at h
    cases h
    exact ⟨handle,suffix,rfl⟩
  by_cases hform : ∃ u, r = '!' :: '<' :: u
  · obtain ⟨u,rfl⟩ := hform
    rw [tag_verbatim] at h
    obtain ⟨⟨text,r₁⟩,-,h⟩ := Option.bind_eq_some_iff.mp h
    unfold verbatimTag at h
    split at h
    · exact hend h
    · cases h
  · rw [tag_shorthand flow (not_exists.mp hform)] at h
    obtain ⟨⟨name,r₁⟩,-,h⟩ := Option.bind_eq_some_iff.mp h
    obtain ⟨⟨text,r₂⟩,-,h⟩ := Option.bind_eq_some_iff.mp h
    unfold shorthandTag at h
    dsimp only at h
    split_ifs at h
    · exact hend h
    · exact hend h
    · exact hend h

lemma isLocal_tag (flow : Bool) : IsLocal y (tag flow) := by
  intro r v r' h hr
  by_cases hform : ∃ t, r = '!' :: '<' :: t
  · obtain ⟨t,rfl⟩ := hform
    have ht := (h.tail (by decide)).tail (by decide)
    rw [tag_verbatim] at hr
    obtain ⟨⟨text,t'⟩,htext,hr⟩ := Option.bind_eq_some_iff.mp hr
    obtain ⟨hs,h₁,htext'⟩ := isLocal_uri true ht htext
    obtain ⟨hs',h',hr'⟩ := isLocal_verbatimTag flow text h₁ hr
    refine ⟨(hs'.trans hs).trans ⟨['!','<'],rfl⟩,h',?_⟩
    rw [List.cons_append,List.cons_append,tag_verbatim,htext']
    exact hr'
  · have hform' : ∀ t, r ++ y ≠ '!' :: '<' :: t := by
      intro t ht
      obtain ⟨r₁,rfl,h₁,ht⟩ := h.cons_of_append (by decide) ht
      obtain ⟨r₂,rfl,-,-⟩ := h₁.cons_of_append (by decide) ht
      exact hform ⟨r₂,rfl⟩
    rw [tag_shorthand flow (not_exists.mp hform)] at hr
    obtain ⟨⟨name,r₁⟩,hname,hr⟩ := Option.bind_eq_some_iff.mp hr
    obtain ⟨⟨text,r₂⟩,htext,hr⟩ := Option.bind_eq_some_iff.mp hr
    obtain ⟨hs₁,h₁,hname'⟩ := isLocal_handle h hname
    obtain ⟨hs₂,h₂,htext'⟩ := isLocal_uri false h₁ htext
    obtain ⟨hs',h',hr'⟩ := isLocal_shorthandTag flow name text h₂ hr
    refine ⟨(hs'.trans hs₂).trans hs₁,h',?_⟩
    rw [tag_shorthand flow hform',hname',Option.bind_some,htext']
    exact hr'

lemma isLocal_number : IsLocal y number := by
  intro r v r' h hr
  have hdigit : Char.isDigit '\n' = false := by decide
  simp only [number] at hr ⊢
  rw [h.takeWhile_append hdigit,h.dropWhile_append hdigit]
  split_ifs at hr with hlength
  cases hr
  exact ⟨List.dropWhile_suffix _,h.dropWhile hdigit,if_neg hlength⟩

lemma isLocal_version : IsLocal y version := by
  intro r v r' h hr
  have hblank : isBlank '\n' = false := by decide
  simp only [version,Option.bind_eq_bind,Option.bind_eq_some_iff] at hr ⊢
  obtain ⟨⟨major,r₁⟩,hmajor,hr⟩ := hr
  rw [h.dropWhile_append hblank]
  obtain ⟨hs,h₁,hmajor'⟩ := isLocal_number (h.dropWhile hblank) hmajor
  dsimp only at hr
  split at hr
  · next r₂ =>
    simp only [Option.bind_eq_some_iff] at hr
    obtain ⟨⟨minor,r₃⟩,hminor,hr⟩ := hr
    cases hr
    obtain ⟨hs',h',hminor'⟩ := isLocal_number (h₁.tail (by decide)) hminor
    refine ⟨((hs'.trans (List.suffix_cons _ _)).trans hs).trans (List.dropWhile_suffix _),h',?_⟩
    rw [hmajor']
    simp [hminor']
  · cases hr

lemma isLocal_tagDirective : IsLocal y tagDirective := by
  intro r v r' h hr
  have hblank : isBlank '\n' = false := by decide
  simp only [tagDirective,Option.bind_eq_bind,Option.bind_eq_some_iff] at hr
  obtain ⟨⟨name,r₁⟩,hname,hr⟩ := hr
  obtain ⟨hs,h₁,hname'⟩ := isLocal_handle (h.dropWhile hblank) hname
  dsimp only at hr
  split_ifs at hr with hform
  split at hr
  · next c r₂ =>
    split_ifs at hr with hc
    simp only [Option.bind_eq_some_iff] at hr
    obtain ⟨⟨lead,r₃⟩,hlead,hr⟩ := hr
    dsimp only at hr
    split_ifs at hr with hend
    cases hr
    have hdrop := h₁.dropWhile_append hblank
    obtain ⟨hs',h',hlead'⟩ := isLocal_uri true (h₁.dropWhile hblank) hlead
    refine ⟨((hs'.trans (List.dropWhile_suffix _)).trans hs).trans (List.dropWhile_suffix _),h',?_⟩
    rw [List.cons_append] at hdrop hname'
    simp only [tagDirective,h.dropWhile_append hblank,hname',Option.bind_eq_bind,Option.bind_some,if_neg hform,
      if_neg hc,hdrop,hlead',h'.atSpace_append,if_neg hend]
  · cases hr

/-- What is left of a line without the comment that it is. -/
def behindComment (r : List Char) : List Char := if r.head? = some '#' then r.dropWhile (!isBreak ·) else r

lemma behindComment_append {r : List Char} (h : Sealed y r) : behindComment r <:+ r ∧
    Sealed y (behindComment r) ∧ behindComment (r ++ y) = behindComment r ++ y := by
  have happend := h.dropWhile_append (p := fun c => !isBreak c) (by decide)
  have hline := h.dropWhile (p := fun c => !isBreak c) (by decide)
  simp only [behindComment,h.head?_append_eq_iff (by decide : '#' ≠ '\n'),happend]
  split_ifs
  · exact ⟨List.dropWhile_suffix _,hline,rfl⟩
  · exact ⟨List.suffix_refl r,h,rfl⟩

/-- What stands behind a directive on its line. -/
def directiveEnd (t : Token) (rest : List Char) : Option (Token × List Char) :=
  match behindComment (rest.dropWhile isBlank) with
  | [] => some (t,[])
  | c :: r => if isBreak c then some (t,c :: r) else none

lemma isLocal_directiveEnd (t : Token) : IsLocal y (directiveEnd t) := by
  intro r v r' h hr
  have hblank : isBlank '\n' = false := by decide
  obtain ⟨hs,hu,happend⟩ := behindComment_append (h.dropWhile hblank)
  rw [directiveEnd] at hr ⊢
  rw [h.dropWhile_append hblank,happend]
  have hsuffix := hs.trans (List.dropWhile_suffix isBlank)
  generalize behindComment (r.dropWhile isBlank) = u at *
  cases u with
  | nil =>
    obtain ⟨y,rfl⟩ := hu.exists_of_nil
    cases hr
    exact ⟨List.nil_suffix,hu,rfl⟩
  | cons c u =>
    dsimp only at hr
    split_ifs at hr with hc
    cases hr
    exact ⟨hsuffix,hu,if_pos hc⟩

def directiveReader (name : List Char) : List Char → Option (Token × List Char) :=
  if name = "YAML".toList then version else if name = "TAG".toList then tagDirective else fun _ => none

lemma isLocal_directiveReader (name : List Char) : IsLocal y (directiveReader name) := by
  unfold directiveReader
  split_ifs
  · exact isLocal_version
  · exact isLocal_tagDirective
  · exact fun _ _ _ _ hr => by cases hr

lemma directive_eq (rest : List Char) : directive rest =
    if !atSpace (rest.dropWhile isWord) then none
    else (directiveReader (rest.takeWhile isWord) (rest.dropWhile isWord)).bind fun p => directiveEnd p.1 p.2 := by
  have hend (p : Token × List Char) : (match (if (p.2.dropWhile isBlank).head? = some '#' then
      (p.2.dropWhile isBlank).dropWhile (!isBreak ·) else p.2.dropWhile isBlank) with
    | [] => some (p.1,[])
    | c :: r => if isBreak c then some (p.1,c :: r) else none) = directiveEnd p.1 p.2 := rfl
  unfold directive directiveReader
  dsimp only
  split_ifs
  · rfl
  · refine congrArg (Option.bind _) (funext fun p => ?_)
    rw [← hend]
    split <;> simp_all
  · refine congrArg (Option.bind _) (funext fun p => ?_)
    rw [← hend]
    split <;> simp_all
  · rfl

lemma exists_of_directive {t : Token} {r r' : List Char} (h : directive r = some (t,r')) :
    (∃ major minor, t = .version major minor) ∨ ∃ handle lead, t = .tagDirective handle lead := by
  rw [directive_eq] at h
  split_ifs at h
  obtain ⟨⟨u,r₁⟩,hu,h⟩ := Option.bind_eq_some_iff.mp h
  have heq : u = t := by
    dsimp only [directiveEnd] at h
    split at h
    · cases h
      rfl
    · split_ifs at h
      cases h
      rfl
  subst heq
  unfold directiveReader at hu
  split_ifs at hu
  · obtain ⟨⟨major,r₂⟩,-,hu⟩ := Option.bind_eq_some_iff.mp hu
    dsimp only at hu
    split at hu
    · obtain ⟨⟨minor,r₃⟩,-,hu⟩ := Option.bind_eq_some_iff.mp hu
      cases hu
      exact Or.inl ⟨major,minor,rfl⟩
    · cases hu
  · obtain ⟨⟨handle,r₂⟩,-,hu⟩ := Option.bind_eq_some_iff.mp hu
    dsimp only at hu
    split_ifs at hu
    split at hu
    · split_ifs at hu
      obtain ⟨⟨lead,r₃⟩,-,hu⟩ := Option.bind_eq_some_iff.mp hu
      dsimp only at hu
      split_ifs at hu
      cases hu
      exact Or.inr ⟨handle,_,rfl⟩
    · cases hu

lemma isLocal_directive : IsLocal y directive := by
  intro r v r' h hr
  have hword : isWord '\n' = false := by decide
  have h₁ := h.dropWhile hword
  rw [directive_eq] at hr ⊢
  rw [h.takeWhile_append hword,h.dropWhile_append hword,h₁.atSpace_append]
  split_ifs at hr ⊢ with hspace
  obtain ⟨⟨t,r₂⟩,ht,hr⟩ := Option.bind_eq_some_iff.mp hr
  obtain ⟨hs₂,h₂,ht'⟩ := isLocal_directiveReader _ h₁ ht
  obtain ⟨hs',h',hr'⟩ := isLocal_directiveEnd t h₂ hr
  refine ⟨(hs'.trans hs₂).trans (List.dropWhile_suffix _),h',?_⟩
  rw [ht']
  exact hr'

end Line
end Keyring.Yaml
