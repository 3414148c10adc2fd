import Keyring.Proofs.Yaml.Seam.Walk
import Mathlib

/-! Texts with a line feed put behind them. The last scalar may take it in; all other tokens are the same. -/
namespace Keyring.Yaml

/-- A scalar in the form of a block may have one more line feed. -/
inductive Token.Grown : Token → Token → Prop
  | same (t : Token) : Grown t t
  | line (text : List Char) : Grown (.scalar text false) (.scalar (text ++ ['\n']) false)

lemma Token.grown_refl (ts : List Token) : List.Forall₂ Grown ts ts := List.forall₂_same.mpr fun t _ => .same t

namespace Scan

variable {b n : Nat} {s s' e : Scan} {c : Char} {r : List Char} {ts : List Token}

/-- One token, where a line feed is put behind the text. It ends where it did, or it is the last one. -/
lemma token_append_lf (hm : s.margin = []) (hrest : s.cursor.rest = c :: r) (hc : c ≠ '\n')
    (hs : s.token c r = some s') :
    (s.append ['\n']).token c (r ++ ['\n']) = some (s'.append ['\n']) ∨
      s'.cursor.rest = [] ∧ ∃ held t t' q a, q.rest = [] ∧ t.Grown t' ∧ s'.held = held ++ [.token t] ∧
        (s.append ['\n']).token c (r ++ ['\n']) =
          some { s' with cursor := q, keyAllowed := a, held := held ++ [.token t'] } := by
  rcases token_append (y := ['\n']) hm hrest hc (Or.inl rfl) hs with ⟨-,-,heq⟩ | ⟨hs,heq⟩ | ⟨folded,hs,heq⟩ | ⟨hs,heq⟩
  · exact Or.inl heq
  · obtain ⟨held,t,r',hdrop,hdirective,rfl⟩ := (directive_eq_some_iff hm).mp hs
    obtain ⟨-,-,hlocal⟩ := Line.isLocal_directive (y := ['\n']) (Or.inl rfl) hdirective
    have hread : (s.append ['\n']).directive = some ((s.append ['\n']).directiveRead held t (r' ++ ['\n'])) := by
      refine (directive_eq_some_iff (s := s.append ['\n']) hm).mpr ⟨held,t,r' ++ ['\n'],?_,?_,rfl⟩
      · rw [unroll_append,dropPlace_append,hdrop]
        rfl
      · change Line.directive (s.cursor.rest ++ ['\n']).tail = _
        rw [List.tail_append_of_ne_nil (by simp [hrest]),hlocal]
    rw [heq,hread,directiveRead,directiveRead,unroll_append]
    cases r' with
    | nil => exact Or.inr ⟨rfl,held,t,t,_,_,rfl,.same t,rfl,rfl⟩
    | cons d r' => exact Or.inl rfl
  · obtain ⟨held,t,q,hdrop,hscalar,rfl⟩ := (blockScalar_eq_some_iff hm).mp hs
    have hread {t' : List Char} {q' : Cursor}
        (h : Block.scalar folded s.indents.head? (s.cursor.append ['\n']) = some (t',q')) :
        (s.append ['\n']).blockScalar folded = some ((s.append ['\n']).scalarRead held t' false true q') := by
      refine (blockScalar_eq_some_iff (s := s.append ['\n']) hm).mpr ⟨held,t',q',?_,h,rfl⟩
      rw [dropPlace_append,hdrop]
      rfl
    rw [heq]
    obtain ⟨-,⟨hq,hscalar'⟩ | ⟨hq,t',q',hq',ht',hscalar'⟩⟩ := Block.scalar_append_lf hrest hscalar
    · exact Or.inl (hread hscalar')
    · refine Or.inr ⟨hq,held,.scalar t false,.scalar t' false,q',true,hq',?_,rfl,hread hscalar'⟩
      rcases ht' with rfl | rfl
      · exact .same _
      · exact .line t
  · obtain ⟨held,t,broken,q,hsave,hplain,rfl⟩ := (plainScalar_eq_some_iff hm).mp hs
    have hread {t' : List Char} {broken' : Bool} {q' : Cursor} (h : plainFrom [] s.inFlow (plainIndent s.indents) .none
        s.cursor.mark (s.cursor.rest ++ ['\n']) = some (t',broken',q')) :
        (s.append ['\n']).plainScalar = some ((s.append ['\n']).scalarRead held t' true broken' q') := by
      refine (plainScalar_eq_some_iff (s := s.append ['\n']) hm).mpr ⟨held,t',broken',q',?_,h,rfl⟩
      rw [savePlace_append,hsave]
      rfl
    rw [heq]
    obtain ⟨-,⟨hq,hplain'⟩ | ⟨hq,gap,-,-,hplain'⟩⟩ := plainFrom_append (y := ['\n']) (fun _ => Or.inl rfl) hplain
    · exact Or.inl (hread hplain')
    · have hlf : plainFrom [] s.inFlow (plainIndent s.indents) gap q.mark ['\n'] =
          some ([],(gap.push '\n').isBroken,⟨q.mark.after '\n',[]⟩) := by
        rw [plainFrom,if_pos (by decide),if_neg (by simp),plainFrom,Margin.lacks_nil,if_neg Bool.false_ne_true]
      rw [hlf,before,Option.map_some,List.append_nil] at hplain'
      exact Or.inr ⟨hq,held,.scalar t true,.scalar t true,_,_,rfl,.same _,rfl,hread hplain'⟩

lemma Loose.of_release (h : s.Sound b) (hs : s.release = some (ts,s')) (hloose : s'.Loose) : s.Loose := by
  have hlevel : s.level = 0 := (same_of_release hs).2.2.symm.trans hloose.level
  refine .of_sound h hlevel fun a ha => ?_
  obtain ⟨s₁,h₁,hs⟩ := Option.bind_eq_some_iff.mp hs
  obtain ⟨held,hheld,h₁⟩ := Option.bind_eq_some_iff.mp h₁
  cases h₁
  cases hs
  by_cases hstale : a.isStale s.cursor.mark = true
  · exact Held.not_isRequired_of_giveUp hheld ha hstale
  · have ha' : a ∈ held := by
      rw [Held.eq_filter_of_giveUp hheld]
      exact List.mem_filter.mpr ⟨ha,by simpa using hstale⟩
    rw [Held.tokens_released (h := held) rfl] at ha'
    rcases List.mem_append.mp ha' with ha' | ha'
    · obtain ⟨t,-,rfl⟩ := List.mem_map.mp ha'
      rfl
    · exact hloose.isFree a ha'

lemma Loose.release (h : s.Loose) : ∃ ts s', s.release = some (ts,s') ∧ s'.Loose := by
  have hexpire : s.expire = some { s with held := s.held.filter fun a => !a.isStale s.cursor.mark } := by
    rw [expire,Held.giveUp_of_isFree h.isFree]
    rfl
  refine ⟨_,_,by rw [Scan.release,hexpire]; rfl,h.held _ fun a ha => Or.inl ?_⟩
  have hreleased := Held.tokens_released (h := s.held.filter fun a => !a.isStale s.cursor.mark) rfl
  have hmem : a ∈ s.held.filter fun a => !a.isStale s.cursor.mark := by
    rw [hreleased]
    exact List.mem_append_right _ ha
  exact (List.mem_filter.mp hmem).1

lemma toNext_append_lf (h : s.toNext.cursor.rest = []) : (s.append ['\n']).toNext.cursor.rest = [] := by
  obtain ⟨-,hq⟩ := nextFrom_append s.toNext.keyAllowed s.toNext.cursor
    (rfl : nextFrom s.inFlow false s.keyAllowed s.cursor.mark s.cursor.rest = _) ['\n']
  rcases hq with ⟨hq,-⟩ | ⟨-,-,comment',-,heq⟩
  · exact absurd h hq
  · have hnext : nextFrom s.inFlow comment' s.toNext.keyAllowed s.toNext.cursor.mark ['\n'] =
        (s.toNext.keyAllowed || !s.inFlow,⟨s.toNext.cursor.mark.nextLine,[]⟩) := by
      rw [nextFrom,if_pos (by decide),nextFrom]
    rw [hnext] at heq
    rw [toNext_of_nextFrom (s := s.append ['\n']) heq]

/-- One step, where a line feed is put behind the text. If it is the last one, the tokens are the same up to the
growth of that token. -/
lemma step_append_lf (h : s.Sound b) (hs : s.step = some (ts,s')) (he : s'.ended = false) :
    (s.append ['\n']).step = some (ts,s'.append ['\n']) ∨ s'.cursor.rest = [] ∧ (s'.Loose →
      ∃ ts' s'', (s.append ['\n']).step = some (ts',s'') ∧ s''.ended = false ∧ s''.cursor.rest = [] ∧
        s''.indents = s'.indents ∧ s''.Loose ∧
        List.Forall₂ Token.Grown (ts ++ Held.tokens s'.held) (ts' ++ Held.tokens s''.held)) := by
  obtain ⟨s₁,c,r,s₂,hahead,h₁,hrest,hc,htoken,h₂,hrelease⟩ := token_of_step h hs he
  have hnext : s.toNext.cursor.rest ≠ [] := by
    rw [← cursor_of_ahead hahead,hrest]
    exact List.cons_ne_nil c r
  have hahead' : (s.append ['\n']).ahead = some (s₁.append ['\n']) := by
    rw [ahead_append (toNext_append hnext _),hahead]
    rfl
  have hrest' : (s₁.append ['\n']).cursor.rest = c :: (r ++ ['\n']) := by
    change s₁.cursor.rest ++ ['\n'] = _
    rw [hrest,List.cons_append]
  have hstep := step_of_token (s := s.append ['\n']) h.margin hahead' hrest'
  rcases token_append_lf h₁.margin hrest hc htoken with heq | ⟨hnil,held,t,t',q,a,hq,hgrown,hheld,heq⟩
  · refine Or.inl ?_
    rw [hstep,heq,Option.bind_some,release_append,hrelease]
    rfl
  · obtain ⟨hcursor,hindents,-⟩ := same_of_release hrelease
    refine Or.inr ⟨by rw [hcursor,hnil],fun hloose => ?_⟩
    have hloose₂ : Loose { s₂ with cursor := q, keyAllowed := a, held := held ++ [.token t'] } := by
      have hlast := (Loose.of_release h₂ hrelease hloose).toward q a
      refine hlast.held _ fun x hx => ?_
      rcases List.mem_append.mp hx with hx | hx
      · exact Or.inl (by rw [hheld]; exact List.mem_append_left _ hx)
      · exact Or.inr ⟨t',List.mem_singleton.mp hx⟩
    obtain ⟨ts',s'',hrelease',hloose'⟩ := hloose₂.release
    obtain ⟨hcursor',hindents',-⟩ := same_of_release hrelease'
    refine ⟨ts',s'',?_,?_,?_,?_,hloose',?_⟩
    · rw [hstep,heq,Option.bind_some,hrelease']
    · rw [ended_of_release hrelease']
      exact h₂.ended
    · rw [hcursor',hq]
    · rw [hindents',hindents]
    · rw [tokens_of_release hrelease,tokens_of_release hrelease',hheld,Held.tokens_append,Held.tokens_append]
      exact List.rel_append (Token.grown_refl _) (.cons hgrown .nil)

/-- A scan to the end of a text, where a line feed is put behind the text. -/
lemma Steps.append_lf (h : Steps n s ts e) (hs : s.Sound b) (hloose : e.Loose) (hnil : e.toNext.cursor.rest = []) :
    ∃ ts' e', Steps n (s.append ['\n']) ts' e' ∧ e'.toNext.cursor.rest = [] ∧ e'.indents = e.indents ∧ e'.Loose ∧
      List.Forall₂ Token.Grown (ts ++ Held.tokens e.held) (ts' ++ Held.tokens e'.held) := by
  induction h generalizing b with
  | refl s =>
    exact ⟨[],s.append ['\n'],.refl _,toNext_append_lf hnil,rfl,{ hloose with },Token.grown_refl _⟩
  | @step n s s' u ts us hstep he hrest ih =>
    obtain ⟨-,hs'⟩ := hs.step hstep he
    rcases step_append_lf hs hstep he with happend | ⟨hs'nil,happend⟩
    · obtain ⟨ts',e',hsteps,hnil',hindents,hloose',hgrown⟩ := ih hs' hloose hnil
      refine ⟨ts ++ ts',e',.step happend he hsteps,hnil',hindents,hloose',?_⟩
      rw [List.append_assoc,List.append_assoc]
      exact List.rel_append (Token.grown_refl _) hgrown
    · obtain ⟨rfl,rfl,rfl⟩ := hrest.eq_of_nil hs' hs'nil
      obtain ⟨ts',e',hstep',he',hnil',hindents,hloose',hgrown⟩ := happend hloose
      refine ⟨ts',e',?_,toNext_of_nil hnil',hindents,hloose',?_⟩
      · simpa using Steps.step hstep' he' (.refl e')
      · simpa using hgrown

end Scan
end Keyring.Yaml
