import Keyring.Proofs.Yaml.Entry
import Keyring.Proofs.Yaml.Sound

/-! Steps of scans of texts with more text behind them: a list of records, whose hyphen stands in the first column, or a
line feed. -/
namespace Keyring.Yaml

def Token.isDirective : Token → Bool
  | version _ _ => true
  | tagDirective _ _ => true
  | _ => false

namespace Scan

/-- The scan before the next token, whose place is free of what is too far back and of the blocks that end there. -/
def ahead (s : Scan) : Option Scan := s.toNext.expire.map fun s => s.unroll (s.column+1)

variable {b : Nat} {g : Margin} {s s' s₁ : Scan} {y r : List Char} {c : Char} {ts : List Token}

lemma next_eq : s.next =
    s.ahead.bind fun s₁ => if s.margin.lacks 4 s₁.cursor.rest then none else match s₁.cursor.rest with
      | [] => s₁.streamEnd
      | c :: r => s₁.token c r := by
  unfold next ahead
  cases h : s.toNext.expire with
  | none => rfl
  | some s₁ =>
    obtain ⟨held,-,h⟩ := Option.bind_eq_some_iff.mp h
    cases h
    have hmargin (limit : Nat) : (unroll { s.toNext with held := held } limit).margin = s.margin := by
      unfold unroll
      split <;> rfl
    refine if_congr ?_ rfl rfl
    rw [hmargin]

namespace Sound

lemma ahead (h : s.Sound b g) (hs : s.ahead = some s₁) : s₁.Sound b g := by
  obtain ⟨s₂,h₂,hs⟩ := Option.map_eq_some_iff.mp hs
  cases hs
  exact (h.toNext.expire h₂).unroll _

lemma append (h : s.Sound b) (y : List Char) : (s.append y).Sound b :=
  { h with }

end Sound

lemma cursor_of_ahead (hs : s.ahead = some s₁) : s₁.cursor = s.toNext.cursor := by
  obtain ⟨s₂,h₂,hs⟩ := Option.map_eq_some_iff.mp hs
  cases hs
  rw [cursor_unroll,(reheld_of_expire h₂).cursor]

lemma keyAllowed_of_ahead (hs : s.ahead = some s₁) : s₁.keyAllowed = s.toNext.keyAllowed := by
  obtain ⟨s₂,h₂,hs⟩ := Option.map_eq_some_iff.mp hs
  obtain ⟨held,-,h₂⟩ := Option.bind_eq_some_iff.mp h₂
  cases hs
  cases h₂
  unfold unroll
  split <;> rfl

lemma isBreak_of_nextFrom {flow comment a a' : Bool} {m m' : Mark} {r' : List Char}
    (h : nextFrom flow comment a m r = (a',⟨m',c :: r'⟩)) : isBreak c = false := by
  induction r generalizing comment a m with
  | nil => cases h
  | cons d r ih =>
    rw [nextFrom] at h
    split_ifs at h with hbreak
    · exact ih h
    · exact ih h
    · exact ih h
    · exact ih h
    · cases h
      simpa using hbreak

/-- One token is read and, with those it lets go, released. -/
lemma step_of_ahead (hs : s.step = some (ts,s')) : ∃ s₁, s.ahead = some s₁ ∧
    (s₁.cursor.rest = [] ∧ s.margin.lacks 4 [] = false ∧ (∃ s₂, s₁.streamEnd = some s₂ ∧ s₂.release = some (ts,s')) ∨
      ∃ c r s₂, s₁.cursor.rest = c :: r ∧ c ≠ '\n' ∧ s₁.token c r = some s₂ ∧ s₂.release = some (ts,s')) := by
  rw [step_eq,next_eq] at hs
  obtain ⟨s₂,hnext,hrelease⟩ := Option.bind_eq_some_iff.mp hs
  obtain ⟨s₁,hahead,hnext⟩ := Option.bind_eq_some_iff.mp hnext
  refine ⟨s₁,hahead,?_⟩
  split_ifs at hnext with hlacks
  cases hrest : s₁.cursor.rest with
  | nil =>
    rw [hrest] at hnext hlacks
    exact Or.inl ⟨rfl,by simpa using hlacks,s₂,hnext,hrelease⟩
  | cons c r =>
    rw [hrest] at hnext
    refine Or.inr ⟨c,r,s₂,rfl,?_,hnext,hrelease⟩
    rintro rfl
    have hcursor := cursor_of_ahead hahead
    have hnext' : nextFrom s.inFlow false s.keyAllowed s.cursor.mark s.cursor.rest =
        (s.toNext.keyAllowed,⟨s₁.cursor.mark,'\n' :: r⟩) :=
      Prod.ext rfl (by rw [← hrest]; exact hcursor.symm)
    have hbreak := isBreak_of_nextFrom hnext'
    cases hbreak

lemma step_of_token (hm : s.margin = []) (hs : s.ahead = some s₁) (hrest : s₁.cursor.rest = c :: r) :
    s.step = (s₁.token c r).bind release := by
  rw [step_eq,next_eq,hs,Option.bind_some,hrest,hm,Margin.lacks_nil,if_neg Bool.false_ne_true]

lemma step_of_streamEnd (hm : s.margin = []) (hs : s.ahead = some s₁) (hrest : s₁.cursor.rest = []) :
    s.step = s₁.streamEnd.bind release := by
  rw [step_eq,next_eq,hs,Option.bind_some,hrest,hm,Margin.lacks_nil,if_neg Bool.false_ne_true]

lemma release_append (s : Scan) (y : List Char) :
    (s.append y).release = s.release.map fun p => (p.1,p.2.append y) := by
  unfold release
  rw [expire_append]
  cases s.expire <;> rfl

/-- What is released and what is still held is all there was. -/
lemma tokens_of_release (h : s.release = some (ts,s')) : ts ++ Held.tokens s'.held = Held.tokens s.held := by
  obtain ⟨s₁,h₁,h⟩ := Option.bind_eq_some_iff.mp h
  obtain ⟨held,hheld,h₁⟩ := Option.bind_eq_some_iff.mp h₁
  cases h₁
  cases h
  rw [← Held.tokens_of_giveUp (fun _ => rfl) hheld]
  conv_rhs => rw [Held.tokens_released (h := held) rfl]
  simp

lemma getLast?_cons {r : List Char} (h : (c :: r).getLast? = some '\n') :
    r.getLast? = some '\n' ∨ r = [] ∧ c = '\n' := by
  cases r with
  | nil => exact Or.inr ⟨rfl,by simpa using h⟩
  | cons d r => exact Or.inl h

/-- Space ends where it did, or goes on from the end of the text. No comment goes on behind a line feed. -/
lemma nextFrom_append {flow comment a : Bool} {m : Mark} (a' : Bool) (q : Cursor)
    (h : nextFrom flow comment a m r = (a',q))
    (y : List Char) : q.rest <:+ r ∧ (q.rest ≠ [] ∧ nextFrom flow comment a m (r ++ y) = (a',q.append y) ∨
      q.rest = [] ∧ (r.getLast? = some '\n' → q.mark.column = 0 ∧ (flow = false → a' = true)) ∧
        ∃ comment', (r.getLast? = some '\n' ∨ r = [] ∧ comment = false → comment' = false) ∧
          nextFrom flow comment a m (r ++ y) = nextFrom flow comment' a' q.mark y) := by
  induction r generalizing comment a m with
  | nil =>
    cases h
    refine ⟨List.suffix_refl [],Or.inr ⟨rfl,fun hl => by simp at hl,comment,fun hl => by simpa using hl,rfl⟩⟩
  | cons c r ih =>
    rw [nextFrom] at h
    rw [List.cons_append,nextFrom]
    -- A character that is no line feed changes nothing about how the text ends.
    have hother {comment'' a'' : Bool} {m' : Mark} (hc : c ≠ '\n') (h : nextFrom flow comment'' a'' m' r = (a',q)) :
        q.rest <:+ c :: r ∧ (q.rest ≠ [] ∧ nextFrom flow comment'' a'' m' (r ++ y) = (a',q.append y) ∨
          q.rest = [] ∧ ((c :: r).getLast? = some '\n' → q.mark.column = 0 ∧ (flow = false → a' = true)) ∧
            ∃ comment', ((c :: r).getLast? = some '\n' ∨ c :: r = [] ∧ comment = false → comment' = false) ∧
              nextFrom flow comment'' a'' m' (r ++ y) = nextFrom flow comment' a' q.mark y) := by
      obtain ⟨hs,hq⟩ := ih h
      refine ⟨hs.trans (List.suffix_cons c r),hq.imp_right ?_⟩
      rintro ⟨hq,hline,comment',hcomment,heq⟩
      refine ⟨hq,?_,comment',?_,heq⟩
      · intro hl
        exact hline ((getLast?_cons hl).resolve_right fun hc' => hc hc'.2)
      · rintro (hl | ⟨hl,-⟩)
        · exact hcomment (Or.inl ((getLast?_cons hl).resolve_right fun hc' => hc hc'.2))
        · cases hl
    by_cases hbreak : isBreak c = true
    · rw [if_pos hbreak] at h ⊢
      obtain ⟨hs,hq⟩ := ih h
      refine ⟨hs.trans (List.suffix_cons c r),hq.imp_right ?_⟩
      rintro ⟨hq,hline,comment',hcomment,heq⟩
      refine ⟨hq,?_,comment',?_,heq⟩
      · intro hl
        rcases getLast?_cons hl with hl | ⟨rfl,-⟩
        · exact hline hl
        · cases h
          refine ⟨rfl,?_⟩
          rintro rfl
          exact Bool.or_true a
      · rintro (hl | ⟨hl,-⟩)
        · rcases getLast?_cons hl with hl | ⟨rfl,-⟩
          · exact hcomment (Or.inl hl)
          · exact hcomment (Or.inr ⟨rfl,rfl⟩)
        · cases hl
    have hlf : c ≠ '\n' := by
      rintro rfl
      exact hbreak rfl
    rw [if_neg hbreak] at h ⊢
    by_cases hcomment : comment = true
    · rw [if_pos hcomment] at h ⊢
      exact hother hlf h
    rw [if_neg hcomment] at h ⊢
    by_cases hblank : c = ' ' ∨ c = '\t' ∧ (flow ∨ !a) ∨ c = '\ufeff' ∧ m.column = 0
    · rw [if_pos hblank] at h ⊢
      exact hother hlf h
    rw [if_neg hblank] at h ⊢
    by_cases hhash : c = '#'
    · rw [if_pos hhash] at h ⊢
      exact hother hlf h
    rw [if_neg hhash] at h ⊢
    cases h
    exact ⟨List.suffix_refl _,Or.inl ⟨List.cons_ne_nil c r,rfl⟩⟩

lemma ahead_append (h : (s.append y).toNext = s.toNext.append y) : (s.append y).ahead = s.ahead.map (·.append y) := by
  unfold ahead
  rw [h,expire_append]
  cases s.toNext.expire with
  | none => rfl
  | some s₁ => exact congrArg some (unroll_append s₁ y _)

lemma toNext_append (h : s.toNext.cursor.rest ≠ []) (y : List Char) : (s.append y).toNext = s.toNext.append y := by
  obtain ⟨-,hq⟩ := nextFrom_append s.toNext.keyAllowed s.toNext.cursor
    (rfl : nextFrom s.inFlow false s.keyAllowed s.cursor.mark s.cursor.rest = _) y
  obtain ⟨-,hq⟩ := hq.resolve_right fun hq => h hq.1
  exact toNext_of_nextFrom hq

/-- At the end of a line, a hyphen behind it is found where the text ended. -/
lemma toNext_append_hyphen (h : EndsLine s.cursor.mark s.cursor.rest) (y : List Char) :
    (s.append ('-' :: y)).toNext = s.toNext.append ('-' :: y) ∧
      EndsLine s.toNext.cursor.mark s.toNext.cursor.rest ∧
      (s.toNext.cursor.rest = [] → s.level = 0 → s.toNext.keyAllowed = true ∨
        s.cursor.rest = [] ∧ s.toNext.keyAllowed = s.keyAllowed) := by
  obtain ⟨hs,hq⟩ := nextFrom_append s.toNext.keyAllowed s.toNext.cursor
    (rfl : nextFrom s.inFlow false s.keyAllowed s.cursor.mark s.cursor.rest = _) ('-' :: y)
  rcases hq with ⟨hq,heq⟩ | ⟨hq,hline,comment',hcomment,heq⟩
  · refine ⟨toNext_of_nextFrom heq,Or.inl ?_,fun h => absurd h hq⟩
    have hlast := (h.sealed (y := []) (by rintro hnil; exact hq (List.suffix_nil.mp (hnil ▸ hs)))).resolve_left
      (by simp)
    exact (Sealed.of_ne (y := []) (Or.inr hlast) hs hq).resolve_left (by simp)
  · have hfalse : comment' = false := hcomment (h.imp_right fun h => ⟨h.1,rfl⟩)
    have hhyphen : nextFrom s.inFlow false s.toNext.keyAllowed s.toNext.cursor.mark ('-' :: y) =
        (s.toNext.keyAllowed,⟨s.toNext.cursor.mark,'-' :: y⟩) := nextFrom_of_precedes (Or.inr ⟨y,rfl⟩) _ _ _
    have happend : s.toNext.cursor.append ('-' :: y) = ⟨s.toNext.cursor.mark,'-' :: y⟩ := by
      rw [Cursor.append,hq]
      rfl
    refine ⟨?_,?_,fun _ hlevel => ?_⟩
    · rw [hfalse,hhyphen,← happend] at heq
      exact toNext_of_nextFrom heq
    · rcases h with h | ⟨h,hcolumn⟩
      · exact Or.inr ⟨hq,(hline h).1⟩
      · refine Or.inr ⟨hq,?_⟩
        have hmark : s.toNext.cursor = ⟨s.cursor.mark,[]⟩ := by
          change (nextFrom s.inFlow false s.keyAllowed s.cursor.mark s.cursor.rest).2 = _
          rw [h]
          rfl
        rw [hmark]
        exact hcolumn
    · rcases h with h | ⟨h,hcolumn⟩
      · refine Or.inl ((hline h).2 ?_)
        simp [inFlow,hlevel]
      · refine Or.inr ⟨h,?_⟩
        change (nextFrom s.inFlow false s.keyAllowed s.cursor.mark s.cursor.rest).1 = _
        rw [h]
        rfl

/-- The column that the lines of a plain scalar must reach. -/
def plainIndent : List Nat → Nat
  | [] => 0
  | i :: _ => i+1

/-- The scan behind a scalar. -/
def scalarRead (s : Scan) (held : List Held) (t : List Char) (isPlain allowed : Bool) (q : Cursor) : Scan :=
  { s with cursor := q, keyAllowed := allowed, held := held ++ [.token (.scalar t isPlain)] }

lemma plainScalar_eq_some_iff (hm : s.margin = []) : s.plainScalar = some s' ↔ ∃ held t broken q,
    s.savePlace = some { s with held := held } ∧
    plainFrom [] s.inFlow (plainIndent s.indents) .none s.cursor.mark s.cursor.rest = some (t,broken,q) ∧
    s' = s.scalarRead held t true broken q := by
  have hplain (held : List Held) : plain [] s.inFlow (match ({ s with held := held } : Scan).indents with
      | [] => 0
      | i :: _ => i+1) s.cursor = plain [] s.inFlow (plainIndent s.indents) s.cursor := by
    dsimp only
    generalize s.indents = is
    cases is <;> rfl
  constructor
  · intro h
    obtain ⟨s₁,h₁,h⟩ := Option.bind_eq_some_iff.mp h
    obtain ⟨held,rfl⟩ := reheld_of_savePlace h₁
    obtain ⟨⟨t,broken,q⟩,hread,h⟩ := Option.bind_eq_some_iff.mp h
    dsimp only at hread
    rw [hm] at hread
    exact ⟨held,t,broken,q,h₁,(hplain held).symm.trans hread,(Option.some.inj h).symm⟩
  · rintro ⟨held,t,broken,q,h₁,hread,rfl⟩
    refine Option.bind_eq_some_iff.mpr ⟨_,h₁,Option.bind_eq_some_iff.mpr ⟨(t,broken,q),?_,rfl⟩⟩
    dsimp only
    rw [hm]
    exact (hplain held).trans hread

lemma blockScalar_eq_some_iff (hm : s.margin = []) {folded : Bool} : s.blockScalar folded = some s' ↔ ∃ held t q,
    s.dropPlace = some { s with held := held } ∧ Block.scalar folded s.indents.head? s.cursor = some (t,q) ∧
    s' = s.scalarRead held t false true q := by
  have hlacks (r : List Char) : s.margin.lacks 1 r = false := by rw [hm,Margin.lacks_nil]
  constructor
  · intro h
    obtain ⟨s₁,h₁,h⟩ := Option.bind_eq_some_iff.mp h
    obtain ⟨held,rfl⟩ := reheld_of_dropPlace h₁
    obtain ⟨⟨t,q⟩,hscalar,h⟩ := Option.bind_eq_some_iff.mp h
    dsimp only at h
    rw [hlacks,if_neg Bool.false_ne_true] at h
    exact ⟨held,t,q,h₁,hscalar,(Option.some.inj h).symm⟩
  · rintro ⟨held,t,q,h₁,hscalar,rfl⟩
    refine Option.bind_eq_some_iff.mpr ⟨_,h₁,Option.bind_eq_some_iff.mpr ⟨(t,q),hscalar,?_⟩⟩
    dsimp only
    rw [hlacks,if_neg Bool.false_ne_true]
    rfl

/-- The scan behind a directive, of whose line `r` is left. -/
def directiveRead (s : Scan) (held : List Held) (t : Token) (r : List Char) : Scan :=
  { s.unroll 0 with cursor := ⟨s.cursor.mark.nextLine,r.tail⟩, keyAllowed := false, held := held ++ [.token t] }

lemma directive_eq_some_iff (hm : s.margin = []) : s.directive = some s' ↔ ∃ held t r,
    (s.unroll 0).dropPlace = some { s.unroll 0 with held := held } ∧ Line.directive s.cursor.rest.tail = some (t,r) ∧
    s' = s.directiveRead held t r := by
  have hlacks (r : List Char) : (s.unroll 0).margin.lacks 2 r = false := by
    have hmargin : (s.unroll 0).margin = [] := by
      unfold unroll
      split <;> exact hm
    rw [hmargin,Margin.lacks_nil]
  have hcursor := cursor_unroll s 0
  constructor
  · intro h
    obtain ⟨s₁,h₁,h⟩ := Option.bind_eq_some_iff.mp h
    obtain ⟨held,rfl⟩ := reheld_of_dropPlace h₁
    obtain ⟨⟨t,r⟩,hdirective,h⟩ := Option.bind_eq_some_iff.mp h
    dsimp only at h hdirective
    rw [hlacks,if_neg Bool.false_ne_true] at h
    rw [hcursor] at hdirective
    refine ⟨held,t,r,h₁,hdirective,?_⟩
    rw [directiveRead,← hcursor]
    exact (Option.some.inj h).symm
  · rintro ⟨held,t,r,h₁,hdirective,rfl⟩
    refine Option.bind_eq_some_iff.mpr ⟨_,h₁,Option.bind_eq_some_iff.mpr ⟨(t,r),?_,?_⟩⟩
    · dsimp only
      rw [hcursor]
      exact hdirective
    · dsimp only
      rw [hlacks,if_neg Bool.false_ne_true,directiveRead,← hcursor]
      rfl

lemma plainScalar_append_hyphen (hm : s.margin = []) (hl : s.cursor.rest.getLast? = some '\n')
    (hs : s.plainScalar = some s') (y : List Char) : EndsLine s'.cursor.mark s'.cursor.rest ∧
      (s'.cursor.rest = [] → s'.keyAllowed = true) ∧
      ((s.append ('-' :: y)).plainScalar = some (s'.append ('-' :: y)) ∨
        s'.cursor.rest = [] ∧ (s.inFlow = true ∨ s.indents = [])) := by
  obtain ⟨held,t,broken,q,hsave,hplain,rfl⟩ := (plainScalar_eq_some_iff hm).mp hs
  have happend (q' : Cursor) (h : plainFrom [] s.inFlow (plainIndent s.indents) .none s.cursor.mark
      (s.cursor.rest ++ '-' :: y) = some (t,broken,q')) :
      (s.append ('-' :: y)).plainScalar = some ((s.append ('-' :: y)).scalarRead held t true broken q') := by
    refine (plainScalar_eq_some_iff (s := s.append ('-' :: y)) hm).mpr ⟨held,t,broken,q',?_,h,rfl⟩
    rw [savePlace_append,hsave]
    rfl
  obtain ⟨hsuffix,hq⟩ := plainFrom_append (y := '-' :: y) (fun _ => Or.inr hl) hplain
  rcases hq with ⟨hq,heq⟩ | ⟨hq,gap',hbroken,hline,heq⟩
  · have hlast : q.rest.getLast? = some '\n' :=
      (Sealed.of_ne (y := '-' :: y) (Or.inr hl) hsuffix hq).resolve_left (by simp)
    exact ⟨Or.inl hlast,fun h => absurd h hq,Or.inl (happend _ heq)⟩
  · obtain ⟨hgap,hcolumn⟩ := hline (Or.inl hl)
    refine ⟨Or.inr ⟨hq,hcolumn⟩,fun _ => hbroken ▸ hgap,?_⟩
    by_cases hinside : s.inFlow = true ∨ s.indents = []
    · exact Or.inr ⟨hq,hinside⟩
    -- In the first column, the hyphen stands left of every line of the scalar.
    obtain ⟨hflow,hindents⟩ := not_or.mp hinside
    have hindent : 0 < plainIndent s.indents := by
      obtain ⟨i,is,his⟩ := List.exists_cons_of_ne_nil hindents
      rw [his]
      exact Nat.succ_pos i
    have hgap' : gap' ≠ .none := by
      rintro rfl
      cases hgap
    have hhyphen : plainFrom [] s.inFlow (plainIndent s.indents) gap' q.mark ('-' :: y) =
        some ([],broken,q.append ('-' :: y)) := by
      rw [plainFrom,if_neg (by decide)]
      simp only [Bool.not_eq_true] at hflow
      simp [hgap',hflow,hcolumn,hindent,hbroken,Cursor.append,hq]
    refine Or.inl (happend (q.append ('-' :: y)) ?_)
    rw [heq,hhyphen]
    simp [before]

lemma blockScalar_append_hyphen (hm : s.margin = []) (hrest : s.cursor.rest = c :: r) (hl : r.getLast? = some '\n')
    {folded : Bool} (hs : s.blockScalar folded = some s') (y : List Char) : EndsLine s'.cursor.mark s'.cursor.rest ∧
      s'.keyAllowed = true ∧ (s.append ('-' :: y)).blockScalar folded = some (s'.append ('-' :: y)) := by
  obtain ⟨held,t,q,hdrop,hscalar,rfl⟩ := (blockScalar_eq_some_iff hm).mp hs
  obtain ⟨-,hline,heq⟩ := Block.scalar_append_hyphen hrest hl hscalar y
  refine ⟨hline,rfl,?_⟩
  refine (blockScalar_eq_some_iff (s := s.append ('-' :: y)) hm).mpr ⟨held,t,_,?_,heq,rfl⟩
  rw [dropPlace_append,hdrop]
  rfl

lemma directive_append_hyphen (hm : s.margin = []) (hl : s.cursor.rest.tail.getLast? = some '\n')
    (hs : s.directive = some s') (y : List Char) : EndsLine s'.cursor.mark s'.cursor.rest ∧
      (∃ held t, s'.held = held ++ [.token t] ∧ t.isDirective = true) ∧
      (s.append ('-' :: y)).directive = some (s'.append ('-' :: y)) := by
  obtain ⟨held,t,r,hdrop,hdirective,rfl⟩ := (directive_eq_some_iff hm).mp hs
  obtain ⟨-,hsealed,heq⟩ := Line.isLocal_directive (y := '-' :: y) (Or.inr hl) hdirective
  have hlast : r.getLast? = some '\n' := hsealed.resolve_left (by simp)
  obtain ⟨d,r,rfl⟩ := List.exists_cons_of_ne_nil (l := r) (by rintro rfl; cases hlast)
  have htail : s.cursor.rest ≠ [] := by
    intro hnil
    rw [hnil] at hl
    cases hl
  refine ⟨EndsLine.tail (m := s.cursor.mark) (Or.inl hlast) fun _ => rfl,⟨held,t,rfl,?_⟩,?_⟩
  · rcases Line.exists_of_directive hdirective with ⟨_,_,rfl⟩ | ⟨_,_,rfl⟩ <;> rfl
  · refine (directive_eq_some_iff (s := s.append ('-' :: y)) hm).mpr ⟨held,t,d :: r ++ '-' :: y,?_,?_,?_⟩
    · rw [unroll_append,dropPlace_append,hdrop]
      rfl
    · change Line.directive (s.cursor.rest ++ '-' :: y).tail = _
      rw [List.tail_append_of_ne_nil htail,heq]
    · rw [directiveRead,directiveRead,unroll_append]
      rfl

/-- One token, where a hyphen stands behind the last line. Only a plain scalar that stands in no block may take it
in. -/
lemma token_append_hyphen (hm : s.margin = []) (hrest : s.cursor.rest = c :: r) (hc : c ≠ '\n')
    (hl : s.cursor.rest.getLast? = some '\n') (hs : s.token c r = some s') (y : List Char) :
    EndsLine s'.cursor.mark s'.cursor.rest ∧
      (s'.cursor.rest = [] → s'.keyAllowed = true ∨ ∃ held t, s'.held = held ++ [.token t] ∧ t.isDirective = true) ∧
      ((s.append ('-' :: y)).token c (r ++ '-' :: y) = some (s'.append ('-' :: y)) ∨
        s'.cursor.rest = [] ∧ s.plainScalar = some s' ∧ (s.inFlow = true ∨ s.indents = []) ∧
          (s.append ('-' :: y)).token c (r ++ '-' :: y) = (s.append ('-' :: y)).plainScalar) := by
  have hlast : r.getLast? = some '\n' := (getLast?_cons (hrest ▸ hl)).resolve_right fun h => hc h.2
  rcases token_append (y := '-' :: y) hm hrest hc (Or.inr (hrest ▸ hl)) hs with
    ⟨-,hsealed,heq⟩ | ⟨hs,heq⟩ | ⟨folded,hs,heq⟩ | ⟨hs,heq⟩
  · have hlast' : s'.cursor.rest.getLast? = some '\n' := hsealed.resolve_left (by simp)
    refine ⟨Or.inl hlast',fun hnil => ?_,Or.inl heq⟩
    rw [hnil] at hlast'
    cases hlast'
  · obtain ⟨hline,hheld,heq'⟩ := directive_append_hyphen hm (by rw [hrest]; exact hlast) hs y
    exact ⟨hline,fun _ => Or.inr hheld,Or.inl (heq.trans heq')⟩
  · obtain ⟨hline,hallowed,heq'⟩ := blockScalar_append_hyphen hm hrest hlast hs y
    exact ⟨hline,fun _ => Or.inl hallowed,Or.inl (heq.trans heq')⟩
  · obtain ⟨hline,hallowed,heq'⟩ := plainScalar_append_hyphen hm hl hs y
    refine ⟨hline,fun h => Or.inl (hallowed h),?_⟩
    rcases heq' with heq' | ⟨hnil,hinside⟩
    · exact Or.inl (heq.trans heq')
    · exact Or.inr ⟨hnil,hs,hinside,heq⟩

lemma Sound.release (h : s.Sound b g) (hs : s.release = some (ts,s')) :
    Token.streamEnd ∉ ts ∧ s'.Sound (nesting b ts) g := by
  obtain ⟨s₁,h₁,hs⟩ := Option.bind_eq_some_iff.mp hs
  have h' := h.expire h₁
  obtain ⟨ts',held,hreleased⟩ : ∃ ts' held, Held.released s₁.held = (ts',held) := ⟨_,_,rfl⟩
  have hheld := Held.tokens_released hreleased
  dsimp only at hs
  rw [hreleased] at hs
  cases hs
  have hend := h'.streamEnd
  have hlevel := h'.level
  rw [hheld,Held.tokens_append,Held.tokens_map] at hend hlevel
  refine ⟨fun hts => hend (List.mem_append_left _ hts),{ h' with streamEnd := ?_, level := ?_, places := ?_ }⟩
  · exact fun hts => hend (List.mem_append_right _ hts)
  · rw [← hlevel,nesting_append]
  · exact fun l m required hm => h'.places l m required (hheld ▸ List.mem_append_right _ hm)

lemma ended_of_streamEnd (h : s.streamEnd = some s') : s'.ended = true := by
  obtain ⟨s₁,-,h⟩ := Option.bind_eq_some_iff.mp h
  cases h
  rfl

lemma ended_of_release (h : s.release = some (ts,s')) : s'.ended = s.ended := by
  obtain ⟨s₁,h₁,h⟩ := Option.bind_eq_some_iff.mp h
  obtain ⟨held,-,h₁⟩ := Option.bind_eq_some_iff.mp h₁
  cases h₁
  cases h
  rfl

/-- A step either reads a token or comes to the end of the stream. -/
lemma token_of_step (h : s.Sound b g) (hs : s.step = some (ts,s')) (he : s'.ended = false) : ∃ s₁ c r s₂,
    s.ahead = some s₁ ∧ s₁.Sound b g ∧ s₁.cursor.rest = c :: r ∧ c ≠ '\n' ∧ s₁.token c r = some s₂ ∧ s₂.Sound b g ∧
      s₂.release = some (ts,s') := by
  obtain ⟨s₁,hahead,⟨-,-,s₂,h₂,hrelease⟩ | ⟨c,r,s₂,hrest,hc,h₂,hrelease⟩⟩ := step_of_ahead hs
  · rw [ended_of_release hrelease,ended_of_streamEnd h₂] at he
    cases he
  · exact ⟨s₁,c,r,s₂,hahead,h.ahead hahead,hrest,hc,h₂,(h.ahead hahead).token h₂,hrelease⟩

lemma Sound.step (h : s.Sound b g) (hs : s.step = some (ts,s')) (he : s'.ended = false) :
    Token.streamEnd ∉ ts ∧ s'.Sound (nesting b ts) g := by
  obtain ⟨s₁,c,r,s₂,-,-,-,-,-,h₂,hrelease⟩ := token_of_step h hs he
  exact h₂.release hrelease

/-- The text may go on within the token read last, which is a plain scalar in no block. -/
def Crosses (b : Nat) (s : Scan) (y : List Char) (ts : List Token) (s' : Scan) : Prop :=
  ∃ s₁ s₂ : Scan, s₁.Sound b ∧ s₁.cursor.rest.getLast? = some '\n' ∧ s₁.plainScalar = some s₂ ∧
    s₂.cursor.rest = [] ∧ (s₁.inFlow = true ∨ s₁.indents = []) ∧ s₂.release = some (ts,s') ∧
    (s.append y).step = (s₁.append y).plainScalar.bind release

/-- One step, where a hyphen stands behind the last line. -/
lemma step_append_hyphen (h : s.Sound b) (hl : EndsLine s.cursor.mark s.cursor.rest) (hs : s.step = some (ts,s'))
    (he : s'.ended = false) (y : List Char) : EndsLine s'.cursor.mark s'.cursor.rest ∧
      (s'.cursor.rest = [] → s'.keyAllowed = true ∨
        ∃ t, (ts ++ Held.tokens s'.held).getLast? = some t ∧ t.isDirective = true) ∧
      ((s.append ('-' :: y)).step = some (ts,s'.append ('-' :: y)) ∨ Crosses b s ('-' :: y) ts s') := by
  obtain ⟨s₁,c,r,s₂,hahead,h₁,hrest,hc,htoken,h₂,hrelease⟩ := token_of_step h hs he
  obtain ⟨hnext,hline,-⟩ := toNext_append_hyphen hl y
  rw [← cursor_of_ahead hahead] at hline
  have hlast : s₁.cursor.rest.getLast? = some '\n' := hline.resolve_right fun hnil => by simp [hrest] at hnil
  have hahead' : (s.append ('-' :: y)).ahead = some (s₁.append ('-' :: y)) := by
    rw [ahead_append hnext,hahead]
    rfl
  have hrest' : (s₁.append ('-' :: y)).cursor.rest = c :: (r ++ '-' :: y) := by
    change s₁.cursor.rest ++ '-' :: y = _
    rw [hrest,List.cons_append]
  have hstep := step_of_token (s := s.append ('-' :: y)) h.margin hahead' hrest'
  obtain ⟨hline',hready,htoken'⟩ := token_append_hyphen h₁.margin hrest hc hlast htoken y
  have htokens := tokens_of_release hrelease
  have hsame : s'.cursor = s₂.cursor ∧ s'.keyAllowed = s₂.keyAllowed := by
    obtain ⟨s₃,h₃,hrelease⟩ := Option.bind_eq_some_iff.mp hrelease
    obtain ⟨held,-,h₃⟩ := Option.bind_eq_some_iff.mp h₃
    cases h₃
    cases hrelease
    exact ⟨rfl,rfl⟩
  rw [hsame.1,hsame.2,htokens]
  refine ⟨hline',fun hnil => (hready hnil).imp_right ?_,?_⟩
  · rintro ⟨held,t,hheld,ht⟩
    exact ⟨t,by simp [hheld,Held.tokens],ht⟩
  · rcases htoken' with heq | ⟨hnil,hplain,hinside,heq⟩
    · refine Or.inl ?_
      rw [hstep,heq,Option.bind_some,release_append,hrelease]
      rfl
    · exact Or.inr ⟨s₁,s₂,h₁,hlast,hplain,hnil,hinside,hrelease,by rw [hstep,heq]⟩

end Scan
end Keyring.Yaml
