import Keyring.Proofs.Yaml.Seam.Tokens

/-! Texts of blanks and line breaks. A tab is no blank where a key may begin, so a text with a tab has no tokens. -/
namespace Keyring.Yaml

open Scan

variable {g : List Char}

lemma nextFrom_of_isSpace (hg : ∀ c ∈ g, isSpace c = true) (m : Mark) :
    ('\t' ∉ g ∧ ∃ m', nextFrom false false true m g = (true,⟨m',[]⟩)) ∨
      '\t' ∈ g ∧ ∃ n r, ∀ y, nextFrom false false true m (g ++ y) = (true,⟨n,'\t' :: (r ++ y)⟩) := by
  induction g generalizing m with
  | nil => exact Or.inl ⟨List.not_mem_nil,m,rfl⟩
  | cons c g ih =>
    have ih' (m : Mark) := ih (fun d hd => hg d (List.mem_cons_of_mem c hd)) m
    by_cases htab : c = '\t'
    · subst htab
      exact Or.inr ⟨List.mem_cons_self,m,g,fun y => by simp [nextFrom,isBreak]⟩
    · obtain ⟨m₁,hnext⟩ : ∃ m₁, ∀ y, nextFrom false false true m (c :: y) = nextFrom false false true m₁ y := by
        by_cases hbreak : isBreak c = true
        · exact ⟨m.nextLine,fun y => by rw [nextFrom,if_pos hbreak]; rfl⟩
        · obtain rfl : c = ' ' := by
            have hc := hg c List.mem_cons_self
            simp only [isSpace,isBlank,Bool.or_eq_true,beq_iff_eq] at hc
            exact (hc.resolve_right hbreak).resolve_right htab
          exact ⟨m.after ' ',fun y => by simp [nextFrom,isBreak]⟩
      rcases ih' m₁ with ⟨hmem,m',h⟩ | ⟨hmem,n,r,h⟩
      · exact Or.inl ⟨by simp [hmem,Ne.symm htab],m',by rw [hnext,h]⟩
      · exact Or.inr ⟨List.mem_cons_of_mem c hmem,n,r,fun y => by rw [List.cons_append,hnext,h]⟩

/-- A blank text without tabs leaves its list open, which is not begun. -/
lemma tokens_of_isSpace (hg : ∀ c ∈ g, isSpace c = true) (htab : '\t' ∉ g) :
    tokens ⟨g,[]⟩ = ([.streamEnd],true) ∧ Source.isOpen ⟨g,[]⟩ = true := by
  obtain ⟨m',h⟩ : ∃ m', nextFrom false false true Mark.start g = (true,⟨m',[]⟩) := by
    rcases nextFrom_of_isSpace hg Mark.start with ⟨-,h⟩ | ⟨hmem,-⟩
    · exact h
    · exact absurd hmem htab
  have hend : EndsAt g [] (start ⟨g,[]⟩) := by
    refine ⟨⟨0,Nat.zero_le _,.refl _⟩,Sound.of_start g,⟨rfl,?_,?_⟩,?_⟩
    · intro a ha
      cases ha
    · intro l p required hm
      cases hm
    · change (nextFrom false false true Mark.start g).2.rest = []
      rw [h]
  have htokens : tokens ⟨g,[]⟩ = ([.streamEnd],true) := hend.tokens_eq
  refine ⟨htokens,?_⟩
  rw [hend.isOpen_eq,htokens]
  rfl

/-- Behind a blank text with a tab nothing is read. -/
lemma step_of_tab (hg : ∀ c ∈ g, isSpace c = true) (htab : '\t' ∈ g) (y : List Char) :
    (start ⟨g ++ y,[]⟩).step = none := by
  obtain ⟨n,r,h⟩ : ∃ n r, ∀ y, nextFrom false false true Mark.start (g ++ y) = (true,⟨n,'\t' :: (r ++ y)⟩) := by
    rcases nextFrom_of_isSpace hg Mark.start with ⟨hmem,-⟩ | ⟨-,h⟩
    · exact absurd htab hmem
    · exact h
  have hnext : (start ⟨g ++ y,[]⟩).toNext = between n ('\t' :: (r ++ y)) [] true := toNext_of_nextFrom (h y)
  have htoken : (between n ('\t' :: (r ++ y)) [] true).token '\t' (r ++ y) = none := by
    simp [token,isDocumentMark,startsPlain,isSpace,isBlank]
  rw [step_eq,next_of_rest (u := between n ('\t' :: (r ++ y)) [] true) hnext rfl rfl rfl rfl,htoken]
  rfl

lemma tokens_of_tab (hg : ∀ c ∈ g, isSpace c = true) (htab : '\t' ∈ g) (y : List Char) :
    (tokens ⟨g ++ y,[]⟩).1 = [] := by
  rw [tokens,run,step_of_tab hg htab y]

lemma isOpen_of_tab (hg : ∀ c ∈ g, isSpace c = true) (htab : '\t' ∈ g) : Source.isOpen ⟨g,[]⟩ = false := by
  have hstep := step_of_tab hg htab []
  rw [List.append_nil] at hstep
  rw [Source.isOpen,atEnd?,hstep]

end Keyring.Yaml
