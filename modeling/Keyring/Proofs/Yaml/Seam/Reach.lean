import Keyring.Proofs.Yaml.Seam.Break
import Keyring.Proofs.Yaml.Seam.OnLine

/-! How far a token reaches that begins before an entry. It ends before the entry as well, unless it is a plain scalar
or one in single quotes. -/
namespace Keyring.Yaml

variable {r w y t : List Char} {c : Char} {m : Mark} {q : Cursor} {gap : Gap}

/-- Whether the text `y` begins a line at the cursor or behind it. -/
def Cursor.Reaches (p : Cursor) (y : List Char) : Prop := ∃ w, p.rest = w ++ y ∧ EndsLine p.mark w

lemma OnLine.reaches {p : Cursor} (h : OnLine (w ++ y) p.rest) (hw : w.getLast? = some '\n') : p.Reaches y := by
  obtain ⟨w',hw',hlast⟩ := h.exists_append hw
  exact ⟨w',hw',.inl hlast⟩

lemma EndsLine.after {c : Char} (h : EndsLine m (c :: w)) : EndsLine (m.after c) w := by
  refine h.tail ?_
  rintro rfl
  rfl

lemma EndsLine.tail_of_ne {m' : Mark} (h : EndsLine m (c :: w)) (hc : c ≠ '\n') : EndsLine m' w :=
  h.tail fun h => absurd h hc

/-- A scalar in single quotes ends before the text that begins the next line, or goes on in it. -/
lemma singleFrom_reaches (hw : EndsLine m w) (hr : r = w ++ '-' :: y) (h : singleFrom [] gap m r = some (t,q)) :
    q.Reaches ('-' :: y) ∨ ∃ gap' t', singleFrom [] gap' (w.foldl Mark.after m) ('-' :: y) = some (t',q) := by
  have hcons {c : Char} {r : List Char} {w : List Char} (hr : c :: r = w ++ '-' :: y) (hc : c ≠ '-') :
      ∃ w', w = c :: w' ∧ r = w' ++ '-' :: y := by
    cases w with
    | nil => exact absurd (List.cons.inj hr).1 hc
    | cons d w =>
      obtain ⟨rfl,hr'⟩ := List.cons.inj hr
      exact ⟨w,rfl,hr'⟩
  fun_induction singleFrom [] gap m r generalizing w t with
  | case1 => cases h
  | case2 => cases h
  | case3 gap m r _ ih =>
    obtain ⟨u,hu,rfl⟩ := before_eq_some_iff.mp h
    obtain ⟨w,rfl,hr₁⟩ := hcons hr (by decide)
    obtain ⟨w,rfl,hr₂⟩ := hcons hr₁ (by decide)
    exact ih hw.after.after hr₂ hu
  | case4 gap m c r _ hspace ih =>
    obtain ⟨w,rfl,hr'⟩ := hcons hr (by rintro rfl; cases hspace)
    exact ih hw.after hr' h
  | case5 => cases h
  | case6 => cases h
  | case7 gap m r =>
    cases h
    obtain ⟨w,rfl,hr'⟩ := hcons hr (by decide)
    exact .inl ⟨w,hr',hw.tail_of_ne (by decide)⟩
  | case8 gap m c r hpair hspace hlacks hmark hquote ih =>
    cases w with
    | nil =>
      obtain ⟨rfl,rfl⟩ := List.cons.inj hr
      refine .inr ⟨gap,t,?_⟩
      rw [List.foldl_nil,singleFrom.eq_3 _ _ _ _ _ hpair,if_neg hspace,if_neg hlacks,if_neg hmark,if_neg hquote,h]
    | cons d w =>
      obtain ⟨rfl,hr'⟩ := List.cons.inj hr
      obtain ⟨u,hu,rfl⟩ := before_eq_some_iff.mp h
      exact ih hw.after hr' hu

/-- A scalar in double quotes ends with the second one. -/
lemma doubleFrom_quote {e : Escape} (h : doubleFrom [] e gap m r = some (t,q)) : ∃ p, r = p ++ '"' :: q.rest := by
  have hcons {c : Char} {r : List Char} (h : ∃ p, r = p ++ '"' :: q.rest) : ∃ p, c :: r = p ++ '"' :: q.rest := by
    obtain ⟨p,rfl⟩ := h
    exact ⟨c :: p,rfl⟩
  fun_induction doubleFrom [] e gap m r generalizing t with
  | case1 => cases h
  | case2 gap m c r _ ih => exact hcons (ih h)
  | case3 => cases h
  | case4 => cases h
  | case5 =>
    cases h
    exact ⟨[],rfl⟩
  | case6 gap m r _ _ _ _ ih =>
    obtain ⟨u,hu,-⟩ := before_eq_some_iff.mp h
    exact hcons (ih hu)
  | case7 gap m c r _ _ _ _ _ ih =>
    obtain ⟨u,hu,-⟩ := before_eq_some_iff.mp h
    exact hcons (ih hu)
  | case8 _ m c r _ ih => exact hcons (ih h)
  | case9 _ m c r _ x _ ih =>
    obtain ⟨u,hu,-⟩ := before_eq_some_iff.mp h
    exact hcons (ih hu)
  | case10 _ m c r _ n _ _ ih => exact hcons (ih h)
  | case11 => cases h
  | case12 => cases h
  | case13 =>
    rename_i ih
    obtain ⟨u,hu,-⟩ := before_eq_some_iff.mp h
    exact hcons (ih hu)
  | case14 => cases h
  | case15 =>
    rename_i ih
    exact hcons (ih h)

/-- A scalar in double quotes does not go on in a text that has none. -/
lemma doubleFrom_reaches {e : Escape} (hw : w.getLast? = some '\n') (hy : '"' ∉ y)
    (h : doubleFrom [] e gap m (w ++ y) = some (t,q)) : q.Reaches y := by
  obtain ⟨p,hp⟩ := doubleFrom_quote h
  rcases List.append_eq_append_iff.mp hp with ⟨v,-,hv⟩ | ⟨w',rfl,hw'⟩
  · exact absurd (hv ▸ List.mem_append_right v List.mem_cons_self) hy
  · cases w' with
    | nil =>
      rw [List.nil_append] at hw'
      exact absurd (hw' ▸ List.mem_cons_self) hy
    | cons d w' =>
      obtain ⟨rfl,hrest⟩ := List.cons.inj hw'
      refine ⟨w',hrest,.inl ?_⟩
      rw [List.getLast?_append_of_ne_nil p (List.cons_ne_nil _ w')] at hw
      exact (Scan.getLast?_cons hw).resolve_right fun h => by cases h.2

/-- A plain scalar ends before the text that begins the next line, or goes on in it. -/
lemma plainFrom_reaches {flow broken : Bool} {indent : Nat} (hw : EndsLine m w) (hr : r = w ++ '-' :: y)
    (h : plainFrom [] flow indent gap m r = some (t,broken,q)) : q.Reaches ('-' :: y) ∨
      ∃ gap' t', (w.getLast? = some '\n' ∨ w = [] ∧ gap.isBroken → gap'.isBroken) ∧
        plainFrom [] flow indent gap' (w.foldl Mark.after m) ('-' :: y) = some (t',broken,q) := by
  fun_induction plainFrom [] flow indent gap m r generalizing w t with
  | case1 => cases h
  | case2 => cases w <;> cases hr
  | case3 => cases h
  | case4 gap m c r hspace _ ih =>
    cases w with
    | nil =>
      obtain ⟨rfl,-⟩ := List.cons.inj hr
      cases hspace
    | cons d w =>
      obtain ⟨rfl,hr'⟩ := List.cons.inj hr
      refine (ih hw.after hr' h).imp_right ?_
      rintro ⟨gap',t',hbroken,hread⟩
      refine ⟨gap',t',?_,hread⟩
      rintro (hl | ⟨hl,-⟩)
      · refine hbroken ((Scan.getLast?_cons hl).imp_right ?_)
        rintro ⟨rfl,rfl⟩
        exact ⟨rfl,by cases gap <;> rfl⟩
      · cases hl
  | case5 gap m c r hspace inGap =>
    rename_i done _
    simp only [done] at h
    cases h
    exact .inl ⟨w,hr,hw⟩
  | case6 => cases h
  | case7 gap m c r _ inGap done =>
    simp only [done] at h
    cases h
    exact .inl ⟨w,hr,hw⟩
  | case8 => cases h
  | case9 gap m c r _ inGap done =>
    simp only [done] at h
    cases h
    exact .inl ⟨w,hr,hw⟩
  | case10 gap m c r hspace inGap hindent hlacks hend hstray hplain =>
    rename_i ih
    cases w with
    | nil =>
      obtain ⟨rfl,rfl⟩ := List.cons.inj hr
      refine .inr ⟨gap,t,fun hl => (hl.resolve_left fun h => by cases h).2,?_⟩
      exact (plainFrom_of_taken hspace hindent hlacks hend hstray hplain).trans h
    | cons d w =>
      obtain ⟨rfl,hr'⟩ := List.cons.inj hr
      obtain ⟨u,hu,rfl⟩ := before_eq_some_iff.mp h
      refine (ih hw.after hr' hu).imp_right ?_
      rintro ⟨gap',t',hbroken,hread⟩
      refine ⟨gap',t',?_,hread⟩
      rintro (hl | ⟨hl,-⟩)
      · refine hbroken ((Scan.getLast?_cons hl).imp_right ?_)
        rintro ⟨-,rfl⟩
        cases hspace rfl
      · cases hl

/-- Where the first quote is not written twice, a scalar in single quotes ends with it. -/
lemma singleFrom_first {p z : List Char} {c : Char} (hp : '\'' ∉ p) (hc : c ≠ '\'')
    (h : singleFrom [] gap m (p ++ '\'' :: c :: z) = some (t,q)) : q.rest = c :: z := by
  induction p generalizing gap m t with
  | nil =>
    rw [List.nil_append,singleFrom.eq_3 _ _ _ _ _ (by rintro r' - h; exact hc (List.cons.inj h).1),
      if_neg (by decide)] at h
    split_ifs at h with _ _ hquote
    · cases h
      rfl
    · exact absurd rfl hquote
  | cons d p ih =>
    obtain ⟨hd,hp⟩ := not_or.mp (List.mem_cons.not.mp hp)
    rw [List.cons_append,singleFrom.eq_3 _ _ _ _ _ (fun r' h => absurd h (Ne.symm hd))] at h
    split_ifs at h with hspace hlacks hmark hquote
    · exact ih hp h
    · exact absurd hquote (Ne.symm hd)
    · obtain ⟨u,hu,-⟩ := before_eq_some_iff.mp h
      exact ih hp hu

lemma singleFrom_mem (h : singleFrom [] gap m r = some (t,q)) : '\'' ∈ r := by
  fun_induction singleFrom [] gap m r generalizing t with
  | case1 => cases h
  | case2 => cases h
  | case3 => exact List.mem_cons_self
  | case4 gap m c r _ _ ih => exact List.mem_cons_of_mem c (ih h)
  | case5 => cases h
  | case6 => cases h
  | case7 => exact List.mem_cons_self
  | case8 gap m c r _ _ _ _ _ ih =>
    obtain ⟨u,hu,-⟩ := before_eq_some_iff.mp h
    exact List.mem_cons_of_mem c (ih hu)

namespace Block

lemma skipBreaks_reaches {indent : Option Nat} {k k' : Nat} {bs : List Char} (hw : EndsLine m w)
    (h : skipBreaks indent k m (w ++ '-' :: y) = some (bs,k',q)) : q.Reaches ('-' :: y) := by
  induction w generalizing m k bs with
  | nil =>
    rw [List.nil_append] at h
    simp only [skipBreaks] at h
    split_ifs at h with h₁ h₂ h₃
    · cases h₁.2
    · cases h₃
    · cases h
      exact ⟨[],rfl,hw⟩
  | cons c w ih =>
    rw [List.cons_append] at h
    simp only [skipBreaks] at h
    split_ifs at h with hspace htab hbreak
    · refine ih (hw.tail_of_ne ?_) h
      rintro rfl
      cases hspace.2
    · obtain ⟨u,hu,-⟩ := before_eq_some_iff.mp h
      exact ih (hw.tail fun _ => rfl) hu
    · cases h
      exact ⟨c :: w,rfl,hw⟩

lemma lines_reaches {folded blank : Bool} {indent n : Nat} {first f : Option Char} {more mo : List Char} {p : Cursor}
    (hindent : 0 < indent) (hp : p.Reaches ('-' :: y))
    (h : lines folded indent n first more blank p = some (t,f,mo,q)) : q.Reaches ('-' :: y) := by
  induction n generalizing first more blank p t with
  | zero =>
    cases h
    exact hp
  | succ n ih =>
    by_cases hstop : p.rest = [] ∨ p.mark.column ≠ indent
    · rw [lines_of_rest hstop] at h
      cases h
      exact hp
    obtain ⟨hne,hcolumn⟩ := not_or.mp hstop
    obtain ⟨c,r,hc⟩ := List.exists_cons_of_ne_nil hne
    obtain ⟨w,hw,hline⟩ := hp
    have hlast : w.getLast? = some '\n' := hline.resolve_right fun h => by
      have := not_not.mp hcolumn
      omega
    rw [lines_of_column hc (not_not.mp hcolumn)] at h
    have hline : OnLine (w ++ '-' :: y) ((w ++ '-' :: y).dropWhile fun c => !isBreak c) := .dropWhile (by decide) _
    obtain ⟨u,hu,hlast'⟩ := hline.exists_append hlast
    rw [hw,hu] at h
    obtain ⟨b,u,rfl⟩ := List.exists_cons_of_ne_nil (l := u) (by rintro rfl; cases hlast')
    obtain ⟨⟨breaks,k,q₁⟩,hbreaks,h⟩ := Option.bind_eq_some_iff.mp h
    obtain ⟨x,hx,-⟩ := before_eq_some_iff.mp h
    rw [List.cons_append,if_neg (List.cons_ne_nil b _),List.tail_cons] at hbreaks
    refine ih (skipBreaks_reaches ?_ hbreaks) hx
    exact EndsLine.tail (m := p.mark) (.inl hlast') fun _ => rfl

/-- A scalar in the form of a block ends before a hyphen in the first column. -/
lemma scalar_reaches {folded : Bool} {base : Option Nat} {start : Cursor} (hr : start.rest.tail = w ++ '-' :: y)
    (hw : w.getLast? = some '\n') (h : scalar folded base start = some (t,q)) : q.Reaches ('-' :: y) := by
  simp only [scalar,Option.bind_eq_bind,Option.bind_eq_some_iff,hr] at h
  obtain ⟨⟨hd,r₁⟩,hheader,r₂,hafter,⟨more,k,p⟩,hskip,⟨text,f,mo,e⟩,hlines,h⟩ := h
  obtain ⟨w₁,rfl,hw₁⟩ := (staysOnLine_header hheader).exists_append hw
  have hcomment : OnLine (w₁ ++ '-' :: y) (Line.behindComment ((w₁ ++ '-' :: y).dropWhile isBlank)) :=
    (OnLine.dropWhile (by decide) _).trans (Line.onLine_behindComment _)
  obtain ⟨w₂,hw₂,hlast⟩ := hcomment.exists_append hw₁
  obtain ⟨b,w₂,rfl⟩ := List.exists_cons_of_ne_nil (l := w₂) (by rintro rfl; cases hlast)
  rw [afterHeader_eq,hw₂,List.cons_append] at hafter
  dsimp only at hafter
  split_ifs at hafter
  cases hafter
  cases h
  have hline : EndsLine start.mark.nextLine w₂ := EndsLine.tail (m := start.mark) (.inl hlast) fun _ => rfl
  exact lines_reaches (pos_indentation hheader base k _) (skipBreaks_reaches hline hskip) hlines

end Block

namespace Scan

variable {s s' : Scan}

lemma quotedScalar_eq_some_iff (hm : s.margin = []) {read : Margin → Cursor → Option (List Char × Cursor)} :
    s.quotedScalar read = some s' ↔ ∃ held t q, s.savePlace = some { s with held := held } ∧
      read [] s.cursor = some (t,q) ∧ s' = s.scalarRead held t false false q := by
  constructor
  · intro h
    obtain ⟨s₁,h₁,h⟩ := Option.bind_eq_some_iff.mp h
    obtain ⟨held,rfl⟩ := reheld_of_savePlace h₁
    obtain ⟨⟨t,q⟩,hread,h⟩ := Option.bind_eq_some_iff.mp h
    dsimp only at hread
    rw [hm] at hread
    exact ⟨held,t,q,h₁,hread,(Option.some.inj h).symm⟩
  · rintro ⟨held,t,q,h₁,hread,rfl⟩
    refine Option.bind_eq_some_iff.mpr ⟨_,h₁,Option.bind_eq_some_iff.mpr ⟨(t,q),?_,rfl⟩⟩
    dsimp only
    rw [hm]
    exact hread

/-- A scalar that goes on in the text `y`, which begins a line at the mark `m`: one in single quotes, or a plain one
that stands in no block. -/
inductive GoesOn (y : List Char) (m : Mark) (s : Scan) : Scan → Prop
  | quoted {held : List Held} {gap : Gap} {t t' : List Char} {q : Cursor} : s.savePlace = some { s with held := held } →
      singleFrom [] gap m y = some (t',q) → GoesOn y m s (s.scalarRead held t false false q)
  | plain {held : List Held} {gap : Gap} {t t' : List Char} {broken : Bool} {q : Cursor} :
      s.savePlace = some { s with held := held } → s.inFlow = true ∨ s.indents = [] →
      plainFrom [] s.inFlow (plainIndent s.indents) gap m y = some (t',broken,q) →
      GoesOn y m s (s.scalarRead held t true broken q)

lemma onLine_of_passes {n : Nat} {f : Scan → Option Scan} (hf : Passes n f) (hn : n ≤ s.cursor.rest.length)
    (hlf : '\n' ∉ s.cursor.rest.take n) (hs : f s = some s') : OnLine s.cursor.rest s'.cursor.rest := by
  refine ⟨s.cursor.rest.take n,?_,hlf⟩
  rw [(hf s hn []).2 s' hs,List.take_append_drop]

lemma onLine_of_word {read : List Char → Option (Token × List Char)} (hm : s.margin = [])
    (hread : ∀ t r', read s.cursor.rest = some (t,r') → OnLine s.cursor.rest r') (hs : s.word read = some s') :
    OnLine s.cursor.rest s'.cursor.rest := by
  obtain ⟨s₁,h₁,hs⟩ := Option.bind_eq_some_iff.mp hs
  obtain ⟨⟨t,r'⟩,hr,hs⟩ := Option.bind_eq_some_iff.mp hs
  have hcursor := (reheld_of_savePlace h₁).cursor
  rw [hcursor] at hr
  obtain ⟨p,hp,hlf⟩ := hread t r' hr
  dsimp only at hs
  rw [(reheld_of_savePlace h₁).margin.trans hm,Margin.lacks_nil,if_neg Bool.false_ne_true] at hs
  cases hs
  refine ⟨p,?_,hlf⟩
  change s.cursor.rest = p ++ s₁.cursor.rest.drop (s₁.cursor.rest.length - r'.length)
  rw [hcursor,hp]
  simp

lemma eq_of_kind? {flow : Bool} {c : Char} {r : List Char} (h : kind? flow c r = some .singleQuoted) : c = '\'' := by
  have hother {p : Prop} [Decidable p] {k : Kind} {o : Option Kind} (hk : k ≠ .singleQuoted)
      (h : (if p then some k else o) = some .singleQuoted) : o = some .singleQuoted := by
    split at h
    · exact absurd (Option.some.inj h) hk
    · exact h
  unfold kind? at h
  iterate 13 replace h := hother Kind.noConfusion h
  by_contra hc
  rw [if_neg hc] at h
  cases hother Kind.noConfusion (hother Kind.noConfusion h)

lemma column_foldl {w : List Char} (hw : w.getLast? = some '\n') (m : Mark) :
    (w.foldl Mark.after m).column = 0 ∧ m.line < (w.foldl Mark.after m).line := by
  obtain ⟨w,rfl⟩ := List.getLast?_eq_some_iff.mp hw
  rw [List.foldl_append]
  exact ⟨rfl,Nat.lt_succ_of_le (Mark.line_le_foldl w m)⟩

/-- A token before the text `y`, which begins a line with a hyphen. The token ends before, or it is a scalar that goes
on in that text. -/
lemma token_reaches (hm : s.margin = []) {c : Char} {w y : List Char} (hrest : s.cursor.rest = c :: (w ++ '-' :: y))
    (hc : c ≠ '\n') (hw : w.getLast? = some '\n') (hy : '"' ∉ y) (hs : s.token c (w ++ '-' :: y) = some s') :
    s'.cursor.Reaches ('-' :: y) ∨ ∃ m : Mark, s.cursor.mark.line < m.line ∧ GoesOn ('-' :: y) m s s' := by
  have hlast : (c :: w).getLast? = some '\n' := by
    rw [List.getLast?_cons_of_ne_nil (by rintro rfl; cases hw),hw]
  have hline (h : OnLine s.cursor.rest s'.cursor.rest) : s'.cursor.Reaches ('-' :: y) :=
    OnLine.reaches (w := c :: w) (by rwa [hrest] at h) hlast
  have hone {f : Scan → Option Scan} (hf : Passes 1 f) (hs : f s = some s') : s'.cursor.Reaches ('-' :: y) :=
    hline (onLine_of_passes hf (by simp [hrest]) (by simpa [hrest] using Ne.symm hc) hs)
  have htail : s.cursor.rest.tail = w ++ '-' :: y := by rw [hrest,List.tail_cons]
  obtain ⟨hcolumn,hlt⟩ := column_foldl hw (s.cursor.mark.after c)
  replace hlt := Nat.lt_of_le_of_lt (s.cursor.mark.line_le_after c) hlt
  rw [token_eq] at hs
  split_ifs at hs with hpercent hmark
  · obtain ⟨held,t,r,-,hdirective,rfl⟩ := (directive_eq_some_iff hm).mp hs
    rw [htail] at hdirective
    obtain ⟨u,hu,hlast'⟩ := (Line.staysOnLine_directive hdirective).exists_append hw
    obtain ⟨d,u,rfl⟩ := List.exists_cons_of_ne_nil (l := u) (by rintro rfl; cases hlast')
    refine .inl ⟨u,by rw [directiveRead,hu]; rfl,?_⟩
    exact EndsLine.tail (m := s.cursor.mark) (.inl hlast') fun _ => rfl
  · obtain ⟨hn,hlf⟩ := length_of_isDocumentMark hmark.2
    rw [← hrest] at hn hlf
    exact .inl (hline (onLine_of_passes (passes_documentMark _) hn hlf hs))
  · obtain ⟨hn,hlf⟩ := length_of_isDocumentMark hmark.2
    rw [← hrest] at hn hlf
    exact .inl (hline (onLine_of_passes (passes_documentMark _) hn hlf hs))
  obtain ⟨k,hk,hs⟩ := Option.bind_eq_some_iff.mp hs
  cases k with
  | flowStart mapping => exact .inl (hone (passes_flowStart _) hs)
  | flowEnd mapping => exact .inl (hone (passes_flowEnd _) hs)
  | flowEntry => exact .inl (hone passes_flowEntry hs)
  | blockEntry => exact .inl (hone passes_blockEntry hs)
  | key => exact .inl (hone passes_key hs)
  | value => exact .inl (hone passes_value hs)
  | name anchor =>
    refine .inl (hline (onLine_of_word hm (fun t r' hr => ?_) hs))
    obtain ⟨⟨name,r₁⟩,hname,hr⟩ := Option.bind_eq_some_iff.mp hr
    cases hr
    rw [hrest] at hname ⊢
    exact .cons hc (Line.staysOnLine_name hname)
  | tag => exact .inl (hline (onLine_of_word hm (fun t r' hr => Line.staysOnLine_tag _ hr) hs))
  | blockScalar folded =>
    obtain ⟨held,t,q,-,hscalar,rfl⟩ := (blockScalar_eq_some_iff hm).mp hs
    exact .inl (Block.scalar_reaches htail hw hscalar)
  | singleQuoted =>
    obtain ⟨held,t,q,hsave,hread,rfl⟩ := (quotedScalar_eq_some_iff hm).mp hs
    rw [Yaml.singleQuoted,htail] at hread
    split_ifs at hread
    obtain rfl := eq_of_kind? hk
    refine (singleFrom_reaches (.inl hw) rfl hread).imp_right ?_
    rintro ⟨gap,t',hthere⟩
    exact ⟨_,hlt,.quoted hsave hthere⟩
  | doubleQuoted =>
    obtain ⟨held,t,q,hsave,hread,rfl⟩ := (quotedScalar_eq_some_iff hm).mp hs
    rw [Yaml.doubleQuoted,htail] at hread
    split_ifs at hread
    exact .inl (doubleFrom_reaches hw (by simp [hy]) hread)
  | plainScalar =>
    obtain ⟨held,t,broken,q,hsave,hread,rfl⟩ := (plainScalar_eq_some_iff hm).mp hs
    rcases plainFrom_reaches (w := c :: w) (.inl hlast) hrest hread with h | ⟨gap,t',hbroken,hthere⟩
    · exact .inl h
    by_cases hinside : s.inFlow = true ∨ s.indents = []
    · exact .inr ⟨_,hlt,.plain hsave hinside hthere⟩
    -- In the first column, the hyphen stands left of every line of the scalar.
    obtain ⟨hflow,hindents⟩ := not_or.mp hinside
    obtain ⟨i,is,his⟩ := List.exists_cons_of_ne_nil hindents
    have hgap : gap ≠ .none := by
      rintro rfl
      cases hbroken (.inl hlast)
    rw [List.foldl_cons,his,plainFrom_of_left (by decide) ⟨hgap,hflow,hcolumn ▸ Nat.succ_pos i⟩] at hthere
    cases hthere
    exact .inl ⟨[],rfl,.inr ⟨rfl,hcolumn⟩⟩

/-- What is left of the text behind a token. -/
lemma suffix_of_token (hm : s.margin = []) {c : Char} (hrest : s.cursor.rest = c :: r) (hc : c ≠ '\n')
    (hs : s.token c r = some s') : s'.cursor.rest <:+ s.cursor.rest := by
  rcases token_append (y := ['\n']) hm hrest hc (.inl rfl) hs with
    ⟨hsuffix,-⟩ | ⟨hs,-⟩ | ⟨folded,hs,-⟩ | ⟨hs,-⟩
  · exact hsuffix
  · obtain ⟨held,t,r',-,hdirective,rfl⟩ := (directive_eq_some_iff hm).mp hs
    obtain ⟨hsuffix,-⟩ := Line.isLocal_directive (y := ['\n']) (.inl rfl) hdirective
    exact (List.tail_suffix r').trans (hsuffix.trans (List.tail_suffix _))
  · obtain ⟨held,t,q,-,hscalar,rfl⟩ := (blockScalar_eq_some_iff hm).mp hs
    rw [hrest]
    exact (Block.scalar_append_lf hrest hscalar).1.trans (List.suffix_cons c r)
  · obtain ⟨held,t,broken,q,-,hplain,rfl⟩ := (plainScalar_eq_some_iff hm).mp hs
    exact (plainFrom_append (y := ['\n']) (fun _ => .inl rfl) hplain).1

end Scan

end Keyring.Yaml
