import Keyring.Proofs.Yaml.Seam.Token

/-! Readers that take no line feed. -/
namespace Keyring.Yaml

variable {r r' r'' w y t : List Char} {c : Char}

/-- No line feed stands before the rest `r'` of the text `r`. -/
def OnLine (r r' : List Char) : Prop := ∃ p, r = p ++ r' ∧ '\n' ∉ p

namespace OnLine

lemma refl (r : List Char) : OnLine r r := ⟨[],rfl,List.not_mem_nil⟩

lemma trans (h : OnLine r r') (h' : OnLine r' r'') : OnLine r r'' := by
  obtain ⟨p,rfl,hp⟩ := h
  obtain ⟨p',rfl,hp'⟩ := h'
  exact ⟨p ++ p',by rw [List.append_assoc],by rw [List.mem_append,not_or]; exact ⟨hp,hp'⟩⟩

lemma single (hc : c ≠ '\n') (r : List Char) : OnLine (c :: r) r := ⟨[c],rfl,by simpa using Ne.symm hc⟩

lemma cons (hc : c ≠ '\n') (h : OnLine r r') : OnLine (c :: r) r' := (single hc r).trans h

lemma dropWhile {p : Char → Bool} (hp : p '\n' = false) (r : List Char) : OnLine r (r.dropWhile p) := by
  refine ⟨r.takeWhile p,List.takeWhile_append_dropWhile.symm,fun hmem => ?_⟩
  rw [List.mem_takeWhile_imp hmem] at hp
  cases hp

/-- Where the text `w` ends with a line feed, what stands behind it is not reached. -/
lemma exists_append (h : OnLine (w ++ y) r') (hw : w.getLast? = some '\n') :
    ∃ w', r' = w' ++ y ∧ w'.getLast? = some '\n' := by
  obtain ⟨p,hp,hlf⟩ := h
  rcases List.append_eq_append_iff.mp hp with ⟨v,rfl,-⟩ | ⟨w',rfl,hr⟩
  · exact absurd (List.mem_append_left v (List.mem_of_getLast? hw)) hlf
  · refine ⟨w',hr,?_⟩
    cases w' with
    | nil =>
      rw [List.append_nil] at hw
      exact absurd (List.mem_of_getLast? hw) hlf
    | cons d w' => rwa [List.getLast?_append_of_ne_nil p (List.cons_ne_nil d w')] at hw

end OnLine

/-- A reader that takes no line feed. -/
def StaysOnLine {α : Type} (f : List Char → Option (α × List Char)) : Prop :=
  ∀ ⦃r : List Char⦄ ⦃v : α⦄ ⦃r' : List Char⦄, f r = some (v,r') → OnLine r r'

namespace Line

lemma staysOnLine_name : StaysOnLine name := by
  intro r v r' hr
  simp only [name] at hr
  split_ifs at hr
  cases hr
  exact .dropWhile (by decide) r

lemma staysOnLine_octet? : StaysOnLine octet? := by
  intro r n r' hr
  obtain ⟨a,b,rfl,ha,hb,-⟩ := octet?_eq_some hr
  exact .cons (by decide) (.cons ha (.single hb r'))

lemma staysOnLine_octets (n : Nat) : StaysOnLine (octets n) := by
  induction n with
  | zero =>
    intro r v r' hr
    cases hr
    exact .refl r
  | succ n ih =>
    intro r v r' hr
    simp only [octets,Option.bind_eq_bind,Option.bind_eq_some_iff] at hr
    obtain ⟨⟨o,r₁⟩,ho,hr⟩ := hr
    split_ifs at hr
    obtain ⟨u,hu,rfl⟩ := before_eq_some_iff.mp hr
    exact (staysOnLine_octet? ho).trans (ih hu)

lemma staysOnLine_escapes : StaysOnLine escapes := by
  intro r v r' hr
  obtain ⟨o,r₁,n,ho,hn,-⟩ := escapes_eq_some hr
  obtain ⟨u,hu,rfl⟩ := before_eq_some_iff.mp hn
  exact (staysOnLine_octet? ho).trans (staysOnLine_octets n hu)

lemma staysOnLine_uri (bracketed : Bool) : StaysOnLine (uri bracketed) := by
  intro r v r' hr
  rw [uri] at hr
  generalize r.length+1 = n at hr
  induction n generalizing r v with
  | zero =>
    cases hr
    exact .refl _
  | succ n ih =>
    cases r with
    | nil =>
      cases hr
      exact .refl []
    | cons c r =>
      rw [uriFrom] at hr
      split_ifs at hr with huri hpercent
      · cases hr
        exact .refl _
      · obtain ⟨⟨x,r₁⟩,hx,hr⟩ := Option.bind_eq_some_iff.mp hr
        obtain ⟨u,hu,rfl⟩ := before_eq_some_iff.mp hr
        exact (staysOnLine_escapes hx).trans (ih hu)
      · obtain ⟨u,hu,rfl⟩ := before_eq_some_iff.mp hr
        refine .cons ?_ (ih hu)
        rintro rfl
        exact huri (by cases bracketed <;> decide)

lemma staysOnLine_handle : StaysOnLine handle := by
  intro r v r' hr
  unfold handle at hr
  split at hr
  · next r =>
    have hword : OnLine ('!' :: r) (r.dropWhile isWord) := .cons (by decide) (.dropWhile (by decide) r)
    generalize r.dropWhile isWord = u at *
    dsimp only at hr
    split at hr
    · cases hr
      exact hword.trans (.single (by decide) _)
    · cases hr
      exact hword
  · cases hr

lemma staysOnLine_tagEnd (flow : Bool) (handle suffix : List Char) : StaysOnLine (tagEnd flow handle suffix) := by
  intro r v r' hr
  rw [tagEnd] at hr
  split_ifs at hr
  cases hr
  exact .refl r

lemma staysOnLine_tag (flow : Bool) : StaysOnLine (tag flow) := by
  intro r v r' hr
  by_cases hform : ∃ t, r = '!' :: '<' :: t
  · obtain ⟨t,rfl⟩ := hform
    rw [tag_verbatim] at hr
    obtain ⟨⟨text,t'⟩,htext,hr⟩ := Option.bind_eq_some_iff.mp hr
    have huri : OnLine ('!' :: '<' :: t) t' := .cons (by decide) (.cons (by decide) (staysOnLine_uri true htext))
    dsimp only [verbatimTag] at hr
    split at hr
    · exact huri.trans (.cons (by decide) (staysOnLine_tagEnd flow _ _ hr))
    · cases hr
  · rw [tag_shorthand flow (not_exists.mp hform)] at hr
    obtain ⟨⟨name,r₁⟩,hname,hr⟩ := Option.bind_eq_some_iff.mp hr
    obtain ⟨⟨text,r₂⟩,htext,hr⟩ := Option.bind_eq_some_iff.mp hr
    refine (staysOnLine_handle hname).trans ((staysOnLine_uri false htext).trans ?_)
    dsimp only [shorthandTag] at hr
    split_ifs at hr
    · exact staysOnLine_tagEnd flow _ _ hr
    · exact staysOnLine_tagEnd flow _ _ hr
    · exact staysOnLine_tagEnd flow _ _ hr

lemma staysOnLine_number : StaysOnLine number := by
  intro r v r' hr
  simp only [number] at hr
  split_ifs at hr
  cases hr
  exact .dropWhile (by decide) r

lemma staysOnLine_version : StaysOnLine version := by
  intro r v r' hr
  obtain ⟨⟨major,r₁⟩,hmajor,hr⟩ := Option.bind_eq_some_iff.mp hr
  have hfirst : OnLine r r₁ := (OnLine.dropWhile (by decide) r).trans (staysOnLine_number hmajor)
  dsimp only at hr
  split at hr
  · obtain ⟨⟨minor,r₃⟩,hminor,hr⟩ := Option.bind_eq_some_iff.mp hr
    cases hr
    exact hfirst.trans (.cons (by decide) (staysOnLine_number hminor))
  · cases hr

lemma staysOnLine_tagDirective : StaysOnLine tagDirective := by
  intro r v r' hr
  obtain ⟨⟨name,r₁⟩,hname,hr⟩ := Option.bind_eq_some_iff.mp hr
  have hfirst : OnLine r r₁ := (OnLine.dropWhile (by decide) r).trans (staysOnLine_handle hname)
  dsimp only at hr
  split_ifs at hr
  split at hr
  · split_ifs at hr
    obtain ⟨⟨lead,r₃⟩,hlead,hr⟩ := Option.bind_eq_some_iff.mp hr
    dsimp only at hr
    split_ifs at hr
    cases hr
    exact hfirst.trans ((OnLine.dropWhile (by decide) _).trans (staysOnLine_uri true hlead))
  · cases hr

lemma onLine_behindComment (r : List Char) : OnLine r (behindComment r) := by
  rw [behindComment]
  split_ifs
  · exact .dropWhile (by decide) r
  · exact .refl r

/-- A directive is read up to the break at the end of its line. -/
lemma staysOnLine_directive : StaysOnLine directive := by
  intro r v r' hr
  rw [directive_eq] at hr
  split_ifs at hr
  obtain ⟨⟨u,r₁⟩,hu,hr⟩ := Option.bind_eq_some_iff.mp hr
  have hreader : OnLine (r.dropWhile isWord) r₁ := by
    unfold directiveReader at hu
    split_ifs at hu
    · exact staysOnLine_version hu
    · exact staysOnLine_tagDirective hu
  have hend : OnLine r₁ (behindComment (r₁.dropWhile isBlank)) :=
    (OnLine.dropWhile (by decide) r₁).trans (onLine_behindComment _)
  refine (OnLine.dropWhile (by decide) r).trans (hreader.trans ?_)
  dsimp only [directiveEnd] at hr
  split at hr
  · next hnil =>
    cases hr
    rwa [hnil] at hend
  · next hcons =>
    split_ifs at hr
    cases hr
    rwa [hcons] at hend

end Line

/-- The header of a scalar in the form of a block stays on its line. -/
lemma Block.staysOnLine_header : StaysOnLine Block.header := by
  intro r v r' hr
  unfold Block.header at hr
  split at hr
  · cases hr
    exact .refl []
  · split at hr
    · next hch =>
      have hc := ne_lf_of_chomping? hch
      split at hr
      · split at hr
        · next hindent =>
          obtain ⟨n,-,heq⟩ := Option.map_eq_some_iff.mp hr
          cases heq
          exact .cons hc (.single (ne_lf_of_indent? hindent) _)
        · cases hr
          exact .single hc _
      · cases hr
        exact .single hc _
    · split at hr
      · next hindent =>
        have hc := ne_lf_of_indent? hindent
        obtain ⟨n,-,heq⟩ := Option.map_eq_some_iff.mp hr
        split at heq
        · split at heq
          · next hch =>
            cases heq
            exact .cons hc (.single (ne_lf_of_chomping? hch) _)
          · cases heq
            exact .single hc _
        · cases heq
          exact .single hc _
      · cases hr
        exact .refl _

end Keyring.Yaml
