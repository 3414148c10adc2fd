import Keyring.Proofs.Yaml.Seam.Line
import Keyring.Proofs.Yaml.Value
import Keyring.Yaml.Lexeme.Block
import Keyring.Yaml.Lexeme.Plain
import Keyring.Yaml.Lexeme.Quoted

/-! Scalars in texts with more text behind them. Those in quotes end where they did; the others may go on if they
reached the end of the text. -/
namespace Keyring.Yaml

/-- The same place with more text behind. -/
def Cursor.append (p : Cursor) (y : List Char) : Cursor := ⟨p.mark,p.rest ++ y⟩

variable {y r t : List Char} {c : Char} {m : Mark} {q : Cursor} {gap : Gap}

lemma Sealed.tail_of_ne (h : Sealed y (c :: r)) (hr : r ≠ []) : Sealed y r :=
  h.of_suffix (List.suffix_cons c r) fun h => absurd h hr

lemma Sealed.of_ne {r' : List Char} (h : Sealed y r) (hs : r' <:+ r) (hr : r' ≠ []) : Sealed y r' :=
  h.of_suffix hs fun h => absurd h hr

lemma Sealed.ne_quote_append (h : Sealed y r) (hr : ∀ r', r ≠ '\'' :: r') (r' : List Char) : r ++ y ≠ '\'' :: r' := by
  intro heq
  obtain ⟨r₁,rfl,-,-⟩ := h.cons_of_append (by decide) heq
  exact hr r₁ rfl

lemma ne_lf_of_not_isSpace (h : isSpace c = false) : c ≠ '\n' := by
  rintro rfl
  cases h

lemma singleFrom_append (h : r ≠ [] → Sealed y r) (hr : singleFrom [] gap m r = some (t,q)) :
    q.rest <:+ r ∧ Sealed y q.rest ∧ singleFrom [] gap m (r ++ y) = some (t,q.append y) := by
  have hpair {c : Char} {r : List Char} (h : Sealed y (c :: r)) (hc : ∀ r', c = '\'' → r = '\'' :: r' → False)
      (r' : List Char) (hquote : c = '\'') : r ++ y = '\'' :: r' → False := by
    subst hquote
    exact (h.tail (by decide)).ne_quote_append (fun r' => hc r' rfl) r'
  fun_induction singleFrom [] gap m r generalizing t with
  | case1 => cases hr
  | case2 gap m r hlacks => cases hr
  | case3 gap m r _ ih =>
    obtain ⟨u,hu,rfl⟩ := before_eq_some_iff.mp hr
    have h' := ((h (List.cons_ne_nil _ _)).tail (by decide)).tail (by decide)
    obtain ⟨hs,hq,hu'⟩ := ih (fun _ => h') hu
    refine ⟨hs.trans ⟨['\'','\''],rfl⟩,hq,?_⟩
    simp [singleFrom,hu',before]
  | case4 gap m c r hc hspace ih =>
    have h' := h (List.cons_ne_nil _ _)
    obtain ⟨hs,hq,hu'⟩ := ih h'.tail_of_ne hr
    refine ⟨hs.trans (List.suffix_cons c r),hq,?_⟩
    rw [List.cons_append,singleFrom.eq_3 _ _ _ _ _ (hpair h' hc),if_pos hspace,hu']
  | case5 gap m c r hc hspace hlacks => cases hr
  | case6 gap m c r hc hspace hlacks hmark => cases hr
  | case7 gap m r hc hspace hlacks hmark =>
    cases hr
    have h' := h (List.cons_ne_nil _ _)
    refine ⟨List.suffix_cons _ r,h'.tail (by decide),?_⟩
    rw [List.cons_append,singleFrom.eq_3 _ _ _ _ _ (hpair h' hc),if_neg hspace,Margin.lacks_nil,
      if_neg Bool.false_ne_true,← List.cons_append,h'.isDocumentMark_append,if_neg hmark,if_pos rfl]
    rfl
  | case8 gap m c r hc hspace hlacks hmark hquote ih =>
    obtain ⟨u,hu,rfl⟩ := before_eq_some_iff.mp hr
    have h' := h (List.cons_ne_nil _ _)
    obtain ⟨hs,hq,hu'⟩ := ih h'.tail_of_ne hu
    refine ⟨hs.trans (List.suffix_cons c r),hq,?_⟩
    rw [List.cons_append,singleFrom.eq_3 _ _ _ _ _ (hpair h' hc),if_neg hspace,Margin.lacks_nil,
      if_neg Bool.false_ne_true,← List.cons_append,h'.isDocumentMark_append,if_neg hmark,if_neg hquote,hu']
    rfl

lemma doubleFrom_append {e : Escape} (h : r ≠ [] → Sealed y r) (hr : doubleFrom [] e gap m r = some (t,q)) :
    q.rest <:+ r ∧ Sealed y q.rest ∧ doubleFrom [] e gap m (r ++ y) = some (t,q.append y) := by
  have hrest {c : Char} {r : List Char} (h : c :: r ≠ [] → Sealed y (c :: r)) (hr : r ≠ []) : Sealed y r :=
    (h (List.cons_ne_nil c r)).tail_of_ne hr
  have hmark {c : Char} {r : List Char} {m : Mark} (h : c :: r ≠ [] → Sealed y (c :: r))
      (hm : ¬(m.column = 0 ∧ isDocumentMark (c :: r) = true)) :
        ¬(m.column = 0 ∧ isDocumentMark (c :: (r ++ y)) = true) := by
    rwa [← List.cons_append,(h (List.cons_ne_nil c r)).isDocumentMark_append]
  fun_induction doubleFrom [] e gap m r generalizing t with
  | case1 => cases hr
  | case2 gap m c r hspace ih =>
    obtain ⟨hs,hq,hu'⟩ := ih (hrest h) hr
    exact ⟨hs.trans (List.suffix_cons c r),hq,by simp [doubleFrom,hspace,hu']⟩
  | case3 => cases hr
  | case4 => cases hr
  | case5 gap m r hspace _ hm =>
    cases hr
    refine ⟨List.suffix_cons _ r,(h (List.cons_ne_nil _ _)).tail (by decide),?_⟩
    rw [List.cons_append,doubleFrom,if_neg hspace,Margin.lacks_nil,Bool.and_false,if_neg Bool.false_ne_true,
      if_neg (hmark h hm),if_pos rfl]
    rfl
  | case6 gap m r hspace _ hm hquote ih =>
    obtain ⟨u,hu,rfl⟩ := before_eq_some_iff.mp hr
    obtain ⟨hs,hq,hu'⟩ := ih (hrest h) hu
    refine ⟨hs.trans (List.suffix_cons _ r),hq,?_⟩
    rw [List.cons_append,doubleFrom,if_neg hspace,Margin.lacks_nil,Bool.and_false,if_neg Bool.false_ne_true,
      if_neg (hmark h hm),if_neg hquote,if_pos rfl,hu']
    rfl
  | case7 gap m c r hspace _ hm hquote hslash ih =>
    obtain ⟨u,hu,rfl⟩ := before_eq_some_iff.mp hr
    obtain ⟨hs,hq,hu'⟩ := ih (hrest h) hu
    refine ⟨hs.trans (List.suffix_cons c r),hq,?_⟩
    rw [List.cons_append,doubleFrom,if_neg hspace,Margin.lacks_nil,Bool.and_false,if_neg Bool.false_ne_true,
      if_neg (hmark h hm),if_neg hquote,if_neg hslash,hu']
    rfl
  | case8 _ m c r hbreak ih =>
    obtain ⟨hs,hq,hu'⟩ := ih (hrest h) hr
    exact ⟨hs.trans (List.suffix_cons c r),hq,by simp [doubleFrom,hbreak,hu']⟩
  | case9 _ m c r hbreak x hx ih =>
    obtain ⟨u,hu,rfl⟩ := before_eq_some_iff.mp hr
    obtain ⟨hs,hq,hu'⟩ := ih (hrest h) hu
    exact ⟨hs.trans (List.suffix_cons c r),hq,by simp [doubleFrom,hbreak,hx,hu',before]⟩
  | case10 _ m c r hbreak n hn hx ih =>
    obtain ⟨hs,hq,hu'⟩ := ih (hrest h) hr
    exact ⟨hs.trans (List.suffix_cons c r),hq,by simp [doubleFrom,hbreak,hx,hn,hu']⟩
  | case11 => cases hr
  | case12 => cases hr
  | case13 missing value _ m c r d hd value' hmissing x hx =>
    rename_i ih
    obtain ⟨u,hu,rfl⟩ := before_eq_some_iff.mp hr
    obtain ⟨hs,hq,hu'⟩ := ih (hrest h) hu
    refine ⟨hs.trans (List.suffix_cons c r),hq,?_⟩
    rw [List.cons_append,doubleFrom,hd]
    dsimp only
    rw [if_pos hmissing,hx,hu']
    rfl
  | case14 => cases hr
  | case15 missing value _ m c r d hd value' hmissing =>
    rename_i ih
    obtain ⟨hs,hq,hu'⟩ := ih (hrest h) hr
    exact ⟨hs.trans (List.suffix_cons c r),hq,by simpa [doubleFrom,hd,hmissing] using hu'⟩

lemma isStrayColon_append {flow : Bool} (h : Sealed y (c :: r)) :
    isStrayColon flow (c :: r ++ y) = isStrayColon flow (c :: r) := by
  by_cases hc : c = ':'
  · subst hc
    cases r with
    | cons d r => rfl
    | nil =>
      obtain ⟨y,rfl⟩ := (h.tail (by decide)).exists_of_nil
      cases flow <;> rfl
  · simp [isStrayColon,hc]

lemma endsPlain_append {flow : Bool} (h : Sealed y (c :: r)) (hc : isSpace c = false) :
    endsPlain flow (c :: r ++ y) = endsPlain flow (c :: r) := by
  simp only [List.cons_append,endsPlain,(h.tail (ne_lf_of_not_isSpace hc)).atSpace_append]

/-- A plain scalar ends where it did, or goes on from the end of the text. Where the last line is ended, it goes on
at the begin of a line. -/
lemma plainFrom_append {flow broken : Bool} {indent : Nat} (h : r ≠ [] → Sealed y r)
    (hr : plainFrom [] flow indent gap m r = some (t,broken,q)) : q.rest <:+ r ∧
      (q.rest ≠ [] ∧ plainFrom [] flow indent gap m (r ++ y) = some (t,broken,q.append y) ∨
        q.rest = [] ∧ ∃ gap', gap'.isBroken = broken ∧
          (r.getLast? = some '\n' ∨ r = [] ∧ gap.isBroken ∧ m.column = 0 → gap'.isBroken ∧ q.mark.column = 0) ∧
          plainFrom [] flow indent gap m (r ++ y) = before t (plainFrom [] flow indent gap' q.mark y)) := by
  have hrest {c : Char} {r : List Char} (h : c :: r ≠ [] → Sealed y (c :: r)) (hr : r ≠ []) : Sealed y r :=
    (h (List.cons_ne_nil c r)).tail_of_ne hr
  have hsame {c : Char} {r : List Char} (h : c :: r ≠ [] → Sealed y (c :: r)) (hc : isSpace c ≠ true) :
      isDocumentMark (c :: (r ++ y)) = isDocumentMark (c :: r) ∧
      isStrayColon flow (c :: (r ++ y)) = isStrayColon flow (c :: r) ∧
      endsPlain flow (c :: (r ++ y)) = endsPlain flow (c :: r) := by
    have h' := h (List.cons_ne_nil c r)
    exact ⟨h'.isDocumentMark_append,isStrayColon_append h',endsPlain_append h' (by simpa using hc)⟩
  fun_induction plainFrom [] flow indent gap m r generalizing t with
  | case1 => cases hr
  | case2 gap m =>
    cases hr
    refine ⟨List.suffix_refl [],Or.inr ⟨rfl,gap,rfl,?_,?_⟩⟩
    · rintro (hl | ⟨-,hl⟩)
      · cases hl
      · exact hl
    · rw [List.nil_append,before_nil]
  | case3 => cases hr
  | case4 gap m c r hspace htab ih =>
    obtain ⟨hs,hq⟩ := ih (hrest h) hr
    have happend : plainFrom [] flow indent gap m (c :: r ++ y) =
        plainFrom [] flow indent (gap.push c) (m.after c) (r ++ y) := by
      rw [List.cons_append,plainFrom,if_pos hspace,if_neg htab]
    refine ⟨hs.trans (List.suffix_cons c r),?_⟩
    rw [happend]
    refine hq.imp_right ?_
    rintro ⟨hq,gap',hbroken,hline,heq⟩
    refine ⟨hq,gap',hbroken,fun hl => hline ?_,heq⟩
    rcases hl with hl | ⟨hl,-⟩
    · cases r with
      | cons d r => exact Or.inl hl
      | nil =>
        cases hl
        refine Or.inr ⟨rfl,?_,rfl⟩
        cases gap <;> rfl
    · cases hl
  | case5 gap m c r hspace inGap =>
    rename_i done hindent
    simp only [done] at hr
    cases hr
    exact ⟨List.suffix_refl _,Or.inl ⟨List.cons_ne_nil c r,plainFrom_of_left hspace hindent (r ++ y)⟩⟩
  | case6 => cases hr
  | case7 gap m c r hspace inGap done hindent =>
    rename_i _ hend
    simp only [done] at hr
    cases hr
    refine ⟨List.suffix_refl _,Or.inl ⟨List.cons_ne_nil c r,?_⟩⟩
    have hend' := hend
    rw [← (hsame h hspace).1] at hend'
    rw [List.cons_append,plainFrom,if_neg hspace,Margin.lacks_nil]
    exact (if_neg hindent).trans ((if_neg Bool.false_ne_true).trans (if_pos hend'))
  | case8 => cases hr
  | case9 gap m c r hspace inGap done hindent =>
    rename_i _ hend hstray hplain
    simp only [done] at hr
    cases hr
    refine ⟨List.suffix_refl _,Or.inl ⟨List.cons_ne_nil c r,?_⟩⟩
    obtain ⟨h₁,h₂,h₃⟩ := hsame h hspace
    have hend' := hend
    rw [← h₁] at hend'
    rw [List.cons_append,plainFrom,if_neg hspace,Margin.lacks_nil,h₂,h₃]
    exact (if_neg hindent).trans ((if_neg Bool.false_ne_true).trans
      ((if_neg hend').trans ((if_neg hstray).trans (if_pos hplain))))
  | case10 gap m c r hspace inGap hindent _ hend hstray hplain =>
    rename_i ih
    obtain ⟨u,hu,rfl⟩ := before_eq_some_iff.mp hr
    obtain ⟨hs,hq⟩ := ih (hrest h) hu
    have happend : plainFrom [] flow indent gap m (c :: r ++ y) =
        before (gap.text ++ [c]) (plainFrom [] flow indent .none (m.after c) (r ++ y)) := by
      obtain ⟨h₁,h₂,h₃⟩ := hsame h hspace
      rw [List.cons_append]
      exact plainFrom_of_taken hspace hindent (by simp) (by rwa [h₁]) (by rwa [h₂]) (by rwa [h₃])
    refine ⟨hs.trans (List.suffix_cons c r),?_⟩
    rw [happend]
    rcases hq with ⟨hq,heq⟩ | ⟨hq,gap',hbroken,hline,heq⟩
    · exact Or.inl ⟨hq,by rw [heq]; rfl⟩
    · refine Or.inr ⟨hq,gap',hbroken,fun hl => hline ?_,by rw [heq,before_before]⟩
      rcases hl with hl | ⟨hl,-⟩
      · cases r with
        | cons d r => exact Or.inl hl
        | nil =>
          cases hl
          exact absurd rfl hspace
      · cases hl

/-- Whether a line begins at the end of a text that begins at the mark. -/
def EndsLine (m : Mark) (r : List Char) : Prop := r.getLast? = some '\n' ∨ r = [] ∧ m.column = 0

lemma EndsLine.tail {m' : Mark} (h : EndsLine m (c :: r)) (hm : c = '\n' → m'.column = 0) : EndsLine m' r := by
  rcases h with h | ⟨h,-⟩
  · cases r with
    | nil =>
      cases h
      exact Or.inr ⟨rfl,hm rfl⟩
    | cons d r => exact Or.inl h
  · cases h

lemma EndsLine.sealed (h : EndsLine m r) (hr : r ≠ []) : Sealed y r := by
  rcases h with h | ⟨h,-⟩
  · exact Or.inr h
  · exact absurd h hr

namespace Block

lemma ne_lf_of_chomping? {ch : Chomping} (h : chomping? c = some ch) : c ≠ '\n' := by
  rintro rfl
  cases h

lemma ne_lf_of_indent? {n : Option Nat} (h : indent? c = some n) : c ≠ '\n' := by
  rintro rfl
  cases h

lemma isLocal_header : IsLocal y header := by
  intro r v r' h hr
  match r with
  | [] =>
    obtain ⟨y,rfl⟩ := h.exists_of_nil
    cases hr
    exact ⟨List.suffix_refl [],h,rfl⟩
  | [c] =>
    have hnil (hc : c ≠ '\n') := (h.tail hc).exists_of_nil
    simp only [header,List.singleton_append] at hr ⊢
    cases hch : chomping? c with
    | some ch =>
      obtain ⟨y,rfl⟩ := hnil (ne_lf_of_chomping? hch)
      simp only [hch,Option.some.injEq,Prod.mk.injEq] at hr
      obtain ⟨rfl,rfl⟩ := hr
      exact ⟨List.nil_suffix,Or.inl rfl,rfl⟩
    | none =>
      simp only [hch] at hr
      cases hn : indent? c with
      | some n =>
        obtain ⟨y,rfl⟩ := hnil (ne_lf_of_indent? hn)
        simp only [hn,Option.map_eq_some_iff,Prod.mk.injEq] at hr
        obtain ⟨n,rfl,rfl,rfl⟩ := hr
        exact ⟨List.nil_suffix,Or.inl rfl,rfl⟩
      | none =>
        simp only [hn,Option.some.injEq,Prod.mk.injEq] at hr
        obtain ⟨rfl,rfl⟩ := hr
        exact ⟨List.suffix_refl [c],h,rfl⟩
  | c :: d :: r =>
    simp only [header,List.cons_append] at hr ⊢
    cases hch : chomping? c with
    | some ch =>
      have h₁ := h.tail (ne_lf_of_chomping? hch)
      simp only [hch] at hr
      cases hn : indent? d with
      | some n =>
        simp only [hn,Option.map_eq_some_iff,Prod.mk.injEq] at hr
        obtain ⟨n,rfl,rfl,rfl⟩ := hr
        exact ⟨⟨[c,d],rfl⟩,h₁.tail (ne_lf_of_indent? hn),rfl⟩
      | none =>
        simp only [hn,Option.some.injEq,Prod.mk.injEq] at hr
        obtain ⟨rfl,rfl⟩ := hr
        exact ⟨List.suffix_cons c _,h₁,rfl⟩
    | none =>
      simp only [hch] at hr
      cases hn : indent? c with
      | some n =>
        have h₁ := h.tail (ne_lf_of_indent? hn)
        simp only [hn,Option.map_eq_some_iff] at hr
        obtain ⟨n,rfl,hr⟩ := hr
        cases hch' : chomping? d with
        | some ch =>
          simp only [hch',Prod.mk.injEq] at hr
          obtain ⟨rfl,rfl⟩ := hr
          exact ⟨⟨[c,d],rfl⟩,h₁.tail (ne_lf_of_chomping? hch'),rfl⟩
        | none =>
          simp only [hch',Prod.mk.injEq] at hr
          obtain ⟨rfl,rfl⟩ := hr
          exact ⟨List.suffix_cons c _,h₁,rfl⟩
      | none =>
        simp only [hn,Option.some.injEq,Prod.mk.injEq] at hr
        obtain ⟨rfl,rfl⟩ := hr
        exact ⟨List.suffix_refl _,h,rfl⟩

lemma afterHeader_eq (r : List Char) : afterHeader r = match Line.behindComment (r.dropWhile isBlank) with
    | [] => some []
    | c :: r => if isBreak c then some r else none := by
  unfold afterHeader
  generalize r.dropWhile isBlank = u
  match u with
  | [] => rfl
  | c :: u =>
    by_cases hc : c = '#'
    · subst hc
      rfl
    · simp [Line.behindComment,hc]

/-- The header's line is ended by the text itself, or by what stands behind it. -/
lemma afterHeader_append (h : Sealed y r) {r' : List Char} (hr : afterHeader r = some r') :
    (∃ c, isBreak c ∧ c :: r' <:+ r ∧ afterHeader (r ++ y) = some (r' ++ y)) ∨
      r' = [] ∧ y.head? = some '\n' ∧ afterHeader (r ++ y) = some y.tail := by
  have hblank : isBlank '\n' = false := by decide
  obtain ⟨hs,hu,happend⟩ := Line.behindComment_append (h.dropWhile hblank)
  rw [afterHeader_eq] at hr ⊢
  rw [h.dropWhile_append hblank,happend]
  have hsuffix := hs.trans (List.dropWhile_suffix isBlank)
  generalize Line.behindComment (r.dropWhile isBlank) = u at *
  cases u with
  | nil =>
    obtain ⟨y,rfl⟩ := hu.exists_of_nil
    cases hr
    exact Or.inr ⟨rfl,rfl,rfl⟩
  | cons c u =>
    dsimp only at hr
    split_ifs at hr with hc
    cases hr
    exact Or.inl ⟨c,hc,hsuffix,if_pos hc⟩

lemma skipBreaks_append {indent : Option Nat} {w w' : Nat} {bs : List Char}
    (hr : skipBreaks indent w m r = some (bs,w',q)) : q.rest <:+ r ∧
      (EndsLine m r → EndsLine q.mark q.rest) ∧
      (q.rest ≠ [] ∧ (∀ y, skipBreaks indent w m (r ++ y) = some (bs,w',q.append y)) ∨
        q.rest = [] ∧ ∃ w'', w' = max w'' q.mark.column ∧
          ∀ y, skipBreaks indent w m (r ++ y) = before bs (skipBreaks indent w'' q.mark y)) := by
  induction r generalizing m w bs with
  | nil =>
    cases hr
    exact ⟨List.suffix_refl [],id,Or.inr ⟨rfl,w,rfl,fun y => by rw [List.nil_append,before_nil]⟩⟩
  | cons c r ih =>
    simp only [skipBreaks,List.cons_append] at hr ⊢
    split_ifs at hr ⊢ with hspace htab hbreak
    · obtain ⟨hs,hline,hq⟩ := ih hr
      refine ⟨hs.trans (List.suffix_cons c r),fun h => hline (h.tail ?_),hq⟩
      intro hlf
      rw [hspace.2] at hlf
      cases hlf
    · obtain ⟨u,hu,rfl⟩ := before_eq_some_iff.mp hr
      obtain ⟨hs,hline,hq⟩ := ih hu
      refine ⟨hs.trans (List.suffix_cons c r),fun h => hline (h.tail fun _ => rfl),?_⟩
      refine hq.imp (fun ⟨hq,heq⟩ => ⟨hq,fun y => ?_⟩) fun ⟨hq,w'',hw,heq⟩ => ⟨hq,w'',hw,fun y => ?_⟩
      · rw [heq]
        rfl
      · rw [heq,before_before]
    · cases hr
      exact ⟨List.suffix_refl _,id,Or.inl ⟨List.cons_ne_nil c r,fun y => rfl⟩⟩

/-- The indentation ends before a hyphen. -/
lemma skipBreaks_append_hyphen {indent : Option Nat} {w w' : Nat} {bs : List Char}
    (hr : skipBreaks indent w m r = some (bs,w',q)) (y : List Char) :
    skipBreaks indent w m (r ++ '-' :: y) = some (bs,w',q.append ('-' :: y)) := by
  rcases (skipBreaks_append hr).2.2 with ⟨-,heq⟩ | ⟨hq,w'',rfl,heq⟩
  · exact heq ('-' :: y)
  · have hstop : skipBreaks indent w'' q.mark ('-' :: y) = some ([],max w'' q.mark.column,⟨q.mark,'-' :: y⟩) := by
      simp [skipBreaks,isBreak]
    rw [heq,hstop,Cursor.append,hq]
    simp [before]

lemma skipBreaks_lf (indent : Option Nat) (w : Nat) (m : Mark) : skipBreaks indent w m ['\n'] =
    some (['\n'],max (max w m.column) 0,⟨m.nextLine,[]⟩) := by
  simp [skipBreaks,isBreak,before,Mark.nextLine]

lemma drop_length_takeWhile (p : Char → Bool) (r : List Char) : r.drop (r.takeWhile p).length = r.dropWhile p := by
  conv => lhs; arg 2; rw [← List.takeWhile_append_dropWhile (p := p) (l := r)]
  rw [List.drop_left]

/-- What the break before a line becomes, where the line begins with `c`. -/
def lead (folded blank : Bool) (first : Option Char) (more : List Char) (c : Char) : List Char :=
  if folded && first == some '\n' && !blank && !isBlank c then (if more = [] then [' '] else []) else first.toList

section

variable {folded blank : Bool} {indent n k : Nat} {first f : Option Char} {more mo : List Char} {p e : Cursor}

/-- A line, the breaks behind it, and what is read from the next line on. -/
lemma lines_of_column (hc : p.rest = c :: r) (hm : p.mark.column = indent) :
    lines folded indent (n+1) first more blank p =
      (skipBreaks (some indent) 0 (if p.rest.dropWhile (!isBreak ·) = [] then
          (p.rest.takeWhile (!isBreak ·)).foldl Mark.after p.mark
        else ((p.rest.takeWhile (!isBreak ·)).foldl Mark.after p.mark).nextLine)
        (p.rest.dropWhile (!isBreak ·)).tail).bind fun x =>
          before (lead folded blank first more c ++ more ++ p.rest.takeWhile (!isBreak ·))
            (lines folded indent n (p.rest.dropWhile (!isBreak ·)).head? x.1 (isBlank c) x.2.2) := by
  rw [lines,hc]
  simp only [hm,ne_eq,not_true_eq_false,if_false]
  rw [← hc,drop_length_takeWhile]
  rfl

lemma lines_append_of_column (h : Sealed y p.rest) (hc : p.rest = c :: r) (hm : p.mark.column = indent) :
    lines folded indent (n+1) first more blank (p.append y) =
      (skipBreaks (some indent) 0 (if p.rest.dropWhile (!isBreak ·) ++ y = [] then
          (p.rest.takeWhile (!isBreak ·)).foldl Mark.after p.mark
        else ((p.rest.takeWhile (!isBreak ·)).foldl Mark.after p.mark).nextLine)
        (p.rest.dropWhile (!isBreak ·) ++ y).tail).bind fun x =>
          before (lead folded blank first more c ++ more ++ p.rest.takeWhile (!isBreak ·))
            (lines folded indent n (p.rest.dropWhile (!isBreak ·) ++ y).head? x.1 (isBlank c) x.2.2) := by
  have hc' : (p.append y).rest = c :: (r ++ y) := congrArg (· ++ y) hc
  have hrest : (p.append y).rest = p.rest ++ y := rfl
  have hmark : (p.append y).mark = p.mark := rfl
  rw [lines_of_column hc' hm,hrest,hmark,h.takeWhile_append (by decide),h.dropWhile_append (by decide)]

lemma lines_of_rest (h : p.rest = [] ∨ p.mark.column ≠ indent) :
    lines folded indent n first more blank p = some ([],first,more,p) := by
  cases n with
  | zero => rfl
  | succ n =>
    rw [lines]
    cases hp : p.rest with
    | nil => rfl
    | cons c r => exact if_pos (h.resolve_left (by simp [hp]))

/-- Lines behind which a hyphen stands in the first column. -/
lemma lines_append_hyphen (hindent : 0 < indent) (hline : EndsLine p.mark p.rest) (hn : p.rest.length < n)
    (hk : n ≤ k) (hr : lines folded indent n first more blank p = some (t,f,mo,e)) (y : List Char) :
    e.rest <:+ p.rest ∧ EndsLine e.mark e.rest ∧
      lines folded indent k first more blank (p.append ('-' :: y)) = some (t,f,mo,e.append ('-' :: y)) := by
  induction n generalizing k first more blank p t with
  | zero => omega
  | succ n ih =>
    obtain ⟨k,rfl⟩ := Nat.exists_eq_add_of_le' (Nat.le_trans (Nat.succ_pos n) hk)
    by_cases hstop : p.rest = [] ∨ p.mark.column ≠ indent
    · rw [lines_of_rest hstop] at hr
      cases hr
      refine ⟨List.suffix_refl _,hline,lines_of_rest (Or.inr ?_)⟩
      rcases hstop with hrest | hcolumn
      · have hzero : e.mark.column = 0 := by
          rcases hline with h | ⟨-,h⟩
          · simp [hrest] at h
          · exact h
        change e.mark.column ≠ indent
        omega
      · exact hcolumn
    obtain ⟨hne,hcolumn⟩ := not_or.mp hstop
    have hcolumn := not_not.mp hcolumn
    obtain ⟨c,r,hc⟩ := List.exists_cons_of_ne_nil hne
    have hsealed : Sealed ('-' :: y) p.rest := hline.sealed hne
    have hrest := hsealed.dropWhile (p := fun c => !isBreak c) (by decide)
    have hsuffix : p.rest.dropWhile (fun c => !isBreak c) <:+ p.rest := List.dropWhile_suffix _
    rw [lines_of_column hc hcolumn] at hr
    rw [lines_append_of_column hsealed hc hcolumn]
    generalize p.rest.dropWhile (fun c => !isBreak c) = u at *
    generalize p.rest.takeWhile (fun c => !isBreak c) = v at *
    cases u with
    | nil =>
      obtain ⟨y',hy⟩ := hrest.exists_of_nil
      cases hy
    | cons b u =>
      rw [if_neg (List.cons_ne_nil b u)] at hr
      rw [List.cons_append,if_neg (List.cons_ne_nil b _)]
      obtain ⟨⟨breaks,w,q⟩,hbreaks,hr⟩ := Option.bind_eq_some_iff.mp hr
      obtain ⟨x,hx,rfl⟩ := before_eq_some_iff.mp hr
      rw [List.tail_cons] at hbreaks
      obtain ⟨hs,hq,-⟩ := skipBreaks_append hbreaks
      have hline' : EndsLine p.mark (b :: u) := Or.inl (hrest.resolve_left (by simp))
      have hlength := hsuffix.length_le
      have hlength' := hs.length_le
      simp only [List.length_cons] at hlength
      obtain ⟨hs',he,hx'⟩ := ih (k := k) (hq (hline'.tail fun _ => rfl)) (by omega) (by omega) hx
      refine ⟨(hs'.trans hs).trans ((List.suffix_cons b u).trans hsuffix),he,?_⟩
      rw [List.tail_cons,skipBreaks_append_hyphen hbreaks,Option.bind_some,List.head?_cons]
      dsimp only
      rw [List.head?_cons] at hx'
      rw [hx']
      rfl

/-- Lines at the end of a text, where a line feed is put behind it. They end before, or that line feed is one of
the breaks at their end. -/
lemma lines_append_lf (hne : p.rest ≠ []) (hn : p.rest.length < n) (hk : n ≤ k)
    (hr : lines folded indent n first more blank p = some (t,f,mo,e)) : e.rest <:+ p.rest ∧
      (e.rest ≠ [] ∧ lines folded indent k first more blank (p.append ['\n']) = some (t,f,mo,e.append ['\n']) ∨
        e.rest = [] ∧ ∃ f' mo' e', e'.rest = [] ∧
          (f' = f ∧ mo' = mo ++ ['\n'] ∨ f = none ∧ mo = [] ∧ f' = some '\n' ∧ mo' = []) ∧
          lines folded indent k first more blank (p.append ['\n']) = some (t,f',mo',e')) := by
  induction n generalizing k first more blank p t with
  | zero => omega
  | succ n ih =>
    obtain ⟨k,rfl⟩ := Nat.exists_eq_add_of_le' (Nat.le_trans (Nat.succ_pos n) hk)
    by_cases hcolumn : p.mark.column = indent
    case neg =>
      rw [lines_of_rest (Or.inr hcolumn)] at hr
      cases hr
      exact ⟨List.suffix_refl _,Or.inl ⟨hne,lines_of_rest (Or.inr hcolumn)⟩⟩
    obtain ⟨c,r,hc⟩ := List.exists_cons_of_ne_nil hne
    have hsuffix : p.rest.dropWhile (fun c => !isBreak c) <:+ p.rest := List.dropWhile_suffix _
    rw [lines_of_column hc hcolumn] at hr
    rw [lines_append_of_column (Or.inl rfl) hc hcolumn]
    generalize p.rest.dropWhile (fun c => !isBreak c) = u at *
    generalize p.rest.takeWhile (fun c => !isBreak c) = v at *
    cases u with
    | nil =>
      -- The last line is not ended before.
      rw [if_pos rfl] at hr
      rw [List.nil_append,if_neg (List.cons_ne_nil _ _)]
      simp only [List.tail_nil,List.tail_cons,skipBreaks,Option.bind_some] at hr ⊢
      rw [lines_of_rest (Or.inl rfl)] at hr ⊢
      cases hr
      exact ⟨List.nil_suffix,Or.inr ⟨rfl,_,_,_,rfl,Or.inr ⟨rfl,rfl,rfl,rfl⟩,rfl⟩⟩
    | cons b u =>
      rw [if_neg (List.cons_ne_nil b u)] at hr
      rw [List.cons_append,if_neg (List.cons_ne_nil b _)]
      obtain ⟨⟨breaks,w,q⟩,hbreaks,hr⟩ := Option.bind_eq_some_iff.mp hr
      obtain ⟨x,hx,rfl⟩ := before_eq_some_iff.mp hr
      rw [List.tail_cons] at hbreaks
      obtain ⟨hs,-,hq⟩ := skipBreaks_append hbreaks
      have hlength := hsuffix.length_le
      have hlength' := hs.length_le
      simp only [List.length_cons] at hlength
      rw [List.tail_cons,List.head?_cons]
      rw [List.head?_cons] at hx
      dsimp only at hx
      rcases hq with ⟨hq,heq⟩ | ⟨hq,w',-,heq⟩
      · obtain ⟨hs',hx'⟩ := ih (k := k) hq (by omega) (by omega) hx
        refine ⟨(hs'.trans hs).trans ((List.suffix_cons b u).trans hsuffix),?_⟩
        rw [heq,Option.bind_some]
        dsimp only
        refine hx'.imp (fun ⟨he,hx'⟩ => ⟨he,by rw [hx']; rfl⟩) ?_
        rintro ⟨he,f',mo',e',he',halike,hx'⟩
        exact ⟨he,f',mo',e',he',halike,by rw [hx']; rfl⟩
      · rw [lines_of_rest (Or.inl hq)] at hx
        cases hx
        refine ⟨hs.trans ((List.suffix_cons b u).trans hsuffix),Or.inr ⟨hq,_,_,⟨e.mark.nextLine,[]⟩,rfl,
          Or.inl ⟨rfl,rfl⟩,?_⟩⟩
        rw [heq,skipBreaks_lf,before,Option.map_some,Option.bind_some]
        dsimp only
        rw [lines_of_rest (Or.inl rfl)]
        rfl

end

lemma pos_of_indent? {n : Nat} (h : indent? c = some (some n)) : 0 < n := by
  unfold indent? at h
  split_ifs at h with hdigit hzero
  · cases h
  · have hn : c.toNat - 48 = n := Option.some.inj (Option.some.inj h)
    have hle : 48 ≤ c.toNat := by
      simp only [Char.isDigit,Bool.and_eq_true,decide_eq_true_eq] at hdigit
      exact hdigit.1
    have hne : c.toNat ≠ 48 := fun heq => hzero (Char.toNat_inj.mp heq)
    omega

lemma pos_of_header {h : Header} {r' : List Char} (hr : header r = some (h,r')) {n : Nat} (hn : h.indent = some n) :
    0 < n := by
  unfold header at hr
  split at hr
  · cases hr
    cases hn
  · split at hr
    · split at hr
      · split at hr
        · next hindent =>
          obtain ⟨k,hk,heq⟩ := Option.map_eq_some_iff.mp hr
          cases heq
          cases hn
          exact pos_of_indent? (hk ▸ hindent)
        · cases hr
          cases hn
      · cases hr
        cases hn
    · split at hr
      · next hindent =>
        obtain ⟨k,hk,heq⟩ := Option.map_eq_some_iff.mp hr
        have hpos := pos_of_indent? (hk ▸ hindent)
        split at heq
        · split at heq <;> cases heq <;> cases hn <;> exact hpos
        · cases heq
          cases hn
          exact hpos
      · cases hr
        cases hn

lemma pos_indentation {h : Header} {r' : List Char} (hr : header r = some (h,r')) (base : Option Nat) (w least : Nat) :
    0 < (h.indent.map (base.getD 0 + ·)).getD (max w (max least 1)) := by
  cases hn : h.indent with
  | none =>
    simp only [Option.map_none,Option.getD_none]
    omega
  | some n =>
    have := pos_of_header hr hn
    simp only [Option.map_some,Option.getD_some]
    omega

/-- A block scalar ends where a hyphen follows in the first column. -/
lemma scalar_append_hyphen {folded : Bool} {base : Option Nat} {start e : Cursor} (hstart : start.rest = c :: r)
    (hlast : r.getLast? = some '\n') (hr : scalar folded base start = some (t,e)) (y : List Char) :
    e.rest <:+ r ∧ EndsLine e.mark e.rest ∧
      scalar folded base (start.append ('-' :: y)) = some (t,e.append ('-' :: y)) := by
  simp only [scalar,Option.bind_eq_bind,Option.bind_eq_some_iff,hstart,List.tail_cons] at hr
  obtain ⟨⟨h,r₁⟩,hheader,r₂,hafter,⟨more,w,p⟩,hskip,⟨text,f,mo,e'⟩,hlines,hr⟩ := hr
  obtain ⟨hs₁,h₁,hheader'⟩ := isLocal_header (y := '-' :: y) (Or.inr hlast) hheader
  rcases afterHeader_append h₁ hafter with ⟨b,-,hs₂,hafter'⟩ | ⟨-,hy,-⟩
  case inr => cases hy
  have hline : EndsLine start.mark (b :: r₂) := Or.inl ((h₁.of_ne hs₂ (List.cons_ne_nil b r₂)).resolve_left (by simp))
  obtain ⟨hs₃,hline',-⟩ := skipBreaks_append hskip
  have hskip' := skipBreaks_append_hyphen hskip y
  dsimp only at hlines hr
  obtain ⟨hs₄,he,hlines'⟩ := lines_append_hyphen (k := (p.append ('-' :: y)).rest.length+1)
    (pos_indentation hheader base w _)
    (hline' (hline.tail fun _ => rfl)) (Nat.lt_succ_self _) (by simp [Cursor.append]) hlines y
  cases hr
  refine ⟨(hs₄.trans hs₃).trans (((List.suffix_cons b r₂).trans hs₂).trans hs₁),he,?_⟩
  have hrest : (start.append ('-' :: y)).rest.tail = r ++ '-' :: y := by rw [Cursor.append,hstart]; rfl
  have hmark : (start.append ('-' :: y)).mark = start.mark := rfl
  simp only [scalar,Option.bind_eq_bind,hrest,hmark,hheader',Option.bind_some,hafter',hskip',hlines']

/-- What becomes of the breaks at the end. -/
def chomped (first : Option Char) (more : List Char) : Chomping → List Char
  | .strip => []
  | .clip => first.toList
  | .keep => first.toList ++ more

lemma chomped_lf {f f' : Option Char} {mo mo' : List Char} (h : f' = f ∧ mo' = mo ++ ['\n'] ∨
    f = none ∧ mo = [] ∧ f' = some '\n' ∧ mo' = []) (text : List Char) (ch : Chomping) :
    text ++ chomped f' mo' ch = text ++ chomped f mo ch ∨
      text ++ chomped f' mo' ch = text ++ chomped f mo ch ++ ['\n'] := by
  rcases h with ⟨rfl,rfl⟩ | ⟨rfl,rfl,rfl,rfl⟩
  · cases ch <;> simp [chomped]
  · cases ch <;> simp [chomped]

/-- The least indentation inside a block indented by `base`, if by any. -/
def least : Option Nat → Nat
  | some n => n+1
  | none => 1

lemma scalar_of_lines {folded : Bool} {base : Option Nat} {start p e : Cursor} {h : Header}
    {r₁ r₂ more text : List Char}
    {w : Nat} {f : Option Char} {mo : List Char} (hheader : header start.rest.tail = some (h,r₁))
    (hafter : afterHeader r₁ = some r₂)
    (hskip : skipBreaks (h.indent.map (base.getD 0 + ·)) 0 start.mark.nextLine r₂ = some (more,w,p))
    (hlines : lines folded ((h.indent.map (base.getD 0 + ·)).getD (max w (max (least base) 1))) (p.rest.length+1)
      none more false p = some (text,f,mo,e)) :
    scalar folded base start = some (text ++ chomped f mo h.chomping,e) := by
  simp only [scalar,Option.bind_eq_bind,hheader,Option.bind_some,hafter,hskip]
  refine (congrArg (Option.bind · _) hlines).trans ?_
  rfl

/-- A block scalar in a text with a line feed put behind it ends before, or it is the last word and may have one more
line feed. -/
lemma scalar_append_lf {folded : Bool} {base : Option Nat} {start e : Cursor} (hstart : start.rest = c :: r)
    (hr : scalar folded base start = some (t,e)) : e.rest <:+ r ∧
      (e.rest ≠ [] ∧ scalar folded base (start.append ['\n']) = some (t,e.append ['\n']) ∨
        e.rest = [] ∧ ∃ t' e', e'.rest = [] ∧ (t' = t ∨ t' = t ++ ['\n']) ∧
          scalar folded base (start.append ['\n']) = some (t',e')) := by
  simp only [scalar,Option.bind_eq_bind,Option.bind_eq_some_iff,hstart,List.tail_cons] at hr
  obtain ⟨⟨h,r₁⟩,hheader,r₂,hafter,⟨more,w,p⟩,hskip,⟨text,f,mo,e'⟩,hlines,hr⟩ := hr
  obtain ⟨hs₁,h₁,hheader'⟩ := isLocal_header (y := ['\n']) (Or.inl rfl) hheader
  have hrest : (start.append ['\n']).rest.tail = r ++ ['\n'] := by rw [Cursor.append,hstart]; rfl
  have hmark : (start.append ['\n']).mark = start.mark := rfl
  -- The header's line is ended by the text, or the scalar is empty.
  rcases afterHeader_append h₁ hafter with ⟨b,-,hs₂,hafter'⟩ | ⟨rfl,-,hafter'⟩
  case inr =>
    dsimp only at hlines hr
    simp only [skipBreaks,Option.some.injEq,Prod.mk.injEq] at hskip
    obtain ⟨rfl,rfl,rfl⟩ := hskip
    rw [lines_of_rest (Or.inl rfl)] at hlines
    cases hlines
    cases hr
    refine ⟨List.nil_suffix,Or.inr ⟨rfl,_,⟨start.mark.nextLine,[]⟩,rfl,Or.inl rfl,?_⟩⟩
    simp only [scalar,Option.bind_eq_bind,hrest,hmark,hheader',Option.bind_some,hafter',List.tail_cons,skipBreaks]
    rw [lines_of_rest (Or.inl rfl)]
    rfl
  have hsuffix := ((List.suffix_cons b r₂).trans hs₂).trans hs₁
  obtain ⟨hs₃,-,hskip'⟩ := skipBreaks_append hskip
  dsimp only at hlines hr hskip'
  cases hr
  rcases hskip' with ⟨hp,hskip'⟩ | ⟨hp,w',hw,hskip'⟩
  · obtain ⟨hs₄,hlines'⟩ := lines_append_lf (k := (p.append ['\n']).rest.length+1) hp (Nat.lt_succ_self _)
      (by simp [Cursor.append]) hlines
    refine ⟨(hs₄.trans hs₃).trans hsuffix,?_⟩
    rcases hlines' with ⟨he,hlines'⟩ | ⟨he,f',mo',e',he',halike,hlines'⟩
    · exact Or.inl ⟨he,scalar_of_lines (hrest ▸ hheader') hafter' (hskip' _) hlines'⟩
    · exact Or.inr ⟨he,_,e',he',chomped_lf halike text h.chomping,
        scalar_of_lines (hrest ▸ hheader') hafter' (hskip' _) hlines'⟩
  · rw [lines_of_rest (Or.inl hp)] at hlines
    cases hlines
    have hskip'' := hskip' ['\n']
    rw [skipBreaks_lf,before,Option.map_some] at hskip''
    exact ⟨hs₃.trans hsuffix,Or.inr ⟨hp,_,⟨e.mark.nextLine,[]⟩,rfl,chomped_lf (Or.inl ⟨rfl,rfl⟩) [] h.chomping,
      scalar_of_lines (hrest ▸ hheader') hafter' hskip'' (lines_of_rest (Or.inl rfl))⟩⟩

end Block
end Keyring.Yaml
