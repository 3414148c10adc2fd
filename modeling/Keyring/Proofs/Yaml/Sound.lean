import Keyring.Proofs.Yaml.Seam.Token

/-! What every scan keeps that begins at the begin of a text. -/
namespace Keyring.Yaml

/-- How many brackets are open behind a token. -/
def Token.nest (n : Nat) : Token → Nat
  | flowSequenceStart => n+1
  | flowMappingStart => n+1
  | flowSequenceEnd => n-1
  | flowMappingEnd => n-1
  | _ => n

/-- How many brackets are open behind tokens. -/
def nesting (n : Nat) (ts : List Token) : Nat := ts.foldl Token.nest n

@[simp] lemma nesting_nil (n : Nat) : nesting n [] = n := rfl

lemma nesting_append (n : Nat) (ts us : List Token) : nesting n (ts ++ us) = nesting (nesting n ts) us :=
  List.foldl_append

lemma Mark.line_le_after (m : Mark) (c : Char) : m.line ≤ (m.after c).line := by
  unfold after
  split
  · exact Nat.le_succ m.line
  · exact Nat.le_refl m.line

lemma Mark.line_le_foldl (v : List Char) (m : Mark) : m.line ≤ (v.foldl after m).line := by
  induction v generalizing m with
  | nil => exact Nat.le_refl _
  | cons c v ih => exact Nat.le_trans (m.line_le_after c) (ih (m.after c))

section

variable {g : Margin} {m : Mark} {r t : List Char} {q : Cursor} {gap : Gap}

lemma singleFrom_line (h : singleFrom g gap m r = some (t,q)) : m.line ≤ q.mark.line := by
  fun_induction singleFrom g gap m r generalizing t with
  | case1 => cases h
  | case2 => cases h
  | case3 gap m r _ ih =>
    obtain ⟨u,hu,-⟩ := before_eq_some_iff.mp h
    exact ih hu
  | case4 gap m c r _ _ ih => exact Nat.le_trans (m.line_le_after c) (ih h)
  | case5 => cases h
  | case6 => cases h
  | case7 =>
    cases h
    exact Nat.le_refl _
  | case8 gap m c r _ _ _ _ _ ih =>
    obtain ⟨u,hu,-⟩ := before_eq_some_iff.mp h
    exact Nat.le_trans (m.line_le_after c) (ih hu)

lemma doubleFrom_line {e : Escape} (h : doubleFrom g e gap m r = some (t,q)) : m.line ≤ q.mark.line := by
  fun_induction doubleFrom g e gap m r generalizing t with
  | case1 => cases h
  | case2 gap m c r _ ih => exact Nat.le_trans (m.line_le_after c) (ih h)
  | case3 => cases h
  | case4 => cases h
  | case5 =>
    cases h
    exact Nat.le_refl _
  | case6 gap m r _ _ _ _ ih =>
    obtain ⟨u,hu,-⟩ := before_eq_some_iff.mp h
    exact ih hu
  | case7 gap m c r _ _ _ _ _ ih =>
    obtain ⟨u,hu,-⟩ := before_eq_some_iff.mp h
    exact Nat.le_trans (m.line_le_after c) (ih hu)
  | case8 _ m c r _ ih => exact Nat.le_trans (Nat.le_succ m.line) (ih h)
  | case9 _ m c r _ x _ ih =>
    obtain ⟨u,hu,-⟩ := before_eq_some_iff.mp h
    exact ih hu
  | case10 _ m c r _ n _ _ ih => exact ih h
  | case11 => cases h
  | case12 => cases h
  | case13 missing value _ m c r d _ value' _ x =>
    rename_i ih
    obtain ⟨u,hu,-⟩ := before_eq_some_iff.mp h
    exact ih hu
  | case14 => cases h
  | case15 missing value _ m c r d _ value' _ =>
    rename_i ih
    exact ih h

lemma plainFrom_mark {flow broken : Bool} {indent : Nat} (h : plainFrom g flow indent gap m r = some (t,broken,q)) :
    ∃ v, r = v ++ q.rest ∧ q.mark = v.foldl Mark.after m := by
  have hcons {m : Mark} {c : Char} {r : List Char}
    (h : ∃ v, r = v ++ q.rest ∧ q.mark = v.foldl Mark.after (m.after c)) :
      ∃ v, c :: r = v ++ q.rest ∧ q.mark = v.foldl Mark.after m := by
    obtain ⟨v,rfl,hmark⟩ := h
    exact ⟨c :: v,rfl,hmark⟩
  fun_induction plainFrom g flow indent gap m r generalizing t with
  | case1 => cases h
  | case2 =>
    cases h
    exact ⟨[],rfl,rfl⟩
  | case3 => cases h
  | case4 gap m c r _ _ ih => exact hcons (ih h)
  | case5 gap m c r _ inGap =>
    rename_i done _
    simp only [done] at h
    cases h
    exact ⟨[],rfl,rfl⟩
  | case6 => cases h
  | case7 gap m c r _ inGap done =>
    simp only [done] at h
    cases h
    exact ⟨[],rfl,rfl⟩
  | case8 => cases h
  | case9 gap m c r _ inGap done =>
    simp only [done] at h
    cases h
    exact ⟨[],rfl,rfl⟩
  | case10 gap m c r _ inGap =>
    rename_i ih
    obtain ⟨u,hu,-⟩ := before_eq_some_iff.mp h
    exact hcons (ih hu)

lemma Block.skipBreaks_line {indent : Option Nat} {w w' : Nat} {bs : List Char}
    (h : skipBreaks indent w m r = some (bs,w',q)) : m.line ≤ q.mark.line := by
  induction r generalizing m w bs with
  | nil =>
    cases h
    exact Nat.le_refl _
  | cons c r ih =>
    simp only [skipBreaks] at h
    split_ifs at h
    · exact (ih h : (m.right 1).line ≤ q.mark.line)
    · obtain ⟨u,hu,-⟩ := before_eq_some_iff.mp h
      exact Nat.le_trans (Nat.le_succ m.line) (ih hu)
    · cases h
      exact Nat.le_refl _

lemma Block.lines_line {folded blank : Bool} {indent n : Nat} {first f : Option Char} {more mo : List Char} {p : Cursor}
    (h : lines folded indent n first more blank p = some (t,f,mo,q)) : p.mark.line ≤ q.mark.line := by
  induction n generalizing first more blank p t with
  | zero =>
    cases h
    exact Nat.le_refl _
  | succ n ih =>
    by_cases hstop : p.rest = [] ∨ p.mark.column ≠ indent
    · rw [lines_of_rest hstop] at h
      cases h
      exact Nat.le_refl _
    obtain ⟨hne,hcolumn⟩ := not_or.mp hstop
    obtain ⟨c,r,hc⟩ := List.exists_cons_of_ne_nil hne
    rw [lines_of_column hc (not_not.mp hcolumn)] at h
    obtain ⟨⟨breaks,w,q₁⟩,hbreaks,h⟩ := Option.bind_eq_some_iff.mp h
    obtain ⟨x,hx,-⟩ := before_eq_some_iff.mp h
    refine Nat.le_trans ?_ (ih hx)
    refine Nat.le_trans (Mark.line_le_foldl (p.rest.takeWhile (!isBreak ·)) p.mark) ?_
    have hline := skipBreaks_line hbreaks
    split at hline
    · exact hline
    · exact Nat.le_trans (Nat.le_succ _) hline

lemma Block.scalar_line {folded : Bool} {base : Option Nat} {start : Cursor}
    (h : scalar folded base start = some (t,q)) :
    start.mark.line ≤ q.mark.line := by
  simp only [scalar,Option.bind_eq_bind,Option.bind_eq_some_iff] at h
  obtain ⟨⟨hd,r₁⟩,-,r₂,-,⟨more,w,p⟩,hskip,⟨text,f,mo,e⟩,hlines,h⟩ := h
  cases h
  exact Nat.le_trans (Nat.le_succ _) (Nat.le_trans (skipBreaks_line hskip) (lines_line hlines))

lemma Scan.nextFrom_line {flow comment a a' : Bool} (h : nextFrom flow comment a m r = (a',q)) :
    m.line ≤ q.mark.line := by
  induction r generalizing comment a m with
  | nil =>
    cases h
    exact Nat.le_refl _
  | cons c r ih =>
    rw [nextFrom] at h
    split_ifs at h
    · exact Nat.le_trans (Nat.le_succ m.line) (ih h)
    · exact Nat.le_trans (m.line_le_after c) (ih h)
    · exact Nat.le_trans (m.line_le_after c) (ih h)
    · exact (ih h : (m.right 1).line ≤ q.mark.line)
    · cases h
      exact Nat.le_refl _

end

namespace Held

/-- The tokens among what is held back. -/
def tokens : List Held → List Token
  | [] => []
  | token t :: r => t :: tokens r
  | place _ _ _ :: r => tokens r

@[simp] lemma tokens_append (h k : List Held) : tokens (h ++ k) = tokens h ++ tokens k := by
  induction h with
  | nil => rfl
  | cons a h ih => cases a <;> simp [tokens,ih]

@[simp] lemma tokens_map (ts : List Token) : tokens (ts.map token) = ts := by
  induction ts with
  | nil => rfl
  | cons t ts ih => simp [tokens,ih]

lemma mem_tokens_iff {t : Token} {h : List Held} : t ∈ tokens h ↔ token t ∈ h := by
  induction h with
  | nil => simp [tokens]
  | cons a h ih => cases a <;> simp [tokens,ih]

lemma eq_filter_of_giveUp {p : Held → Bool} {h h' : List Held} (hh : giveUp p h = some h') :
    h' = h.filter fun a => !p a := by
  unfold giveUp at hh
  split at hh
  · cases hh
  · exact (Option.some.inj hh).symm

lemma tokens_of_giveUp {p : Held → Bool} (hp : ∀ t, p (token t) = false) {h h' : List Held}
    (hh : giveUp p h = some h') : tokens h' = tokens h := by
  rw [eq_filter_of_giveUp hh]
  clear hh
  induction h with
  | nil => rfl
  | cons a h ih =>
    cases a with
    | token t => simp [tokens,hp,ih]
    | place l m required =>
      rw [List.filter_cons]
      split <;> simpa [tokens] using ih

/-- The tokens released and those still held are those held before. -/
lemma tokens_released {h h' : List Held} {ts : List Token} (hh : released h = (ts,h')) :
    h = ts.map token ++ h' := by
  induction h generalizing ts with
  | nil =>
    cases hh
    rfl
  | cons a h ih =>
    cases a with
    | place l m required =>
      cases hh
      rfl
    | token t =>
      rw [released] at hh
      cases hh
      rw [List.map_cons,List.cons_append,← ih rfl]

lemma mem_fill {level : Nat} {ts : List Token} {h : List Held} {a : Held} (ha : a ∈ fill level ts h) :
    a ∈ h ∨ ∃ t ∈ ts, a = token t := by
  obtain ⟨b,hb,ha⟩ := List.mem_flatMap.mp ha
  split at ha
  · obtain ⟨t,ht,rfl⟩ := List.mem_map.mp ha
    exact Or.inr ⟨t,ht,rfl⟩
  · obtain rfl := List.mem_singleton.mp ha
    exact Or.inl hb

/-- Tokens that open and close no brackets may be put in anywhere. -/
lemma nesting_fill {level n : Nat} {ts : List Token} (hts : ∀ n, nesting n ts = n) (h : List Held) :
    nesting n (tokens (fill level ts h)) = nesting n (tokens h) := by
  induction h generalizing n with
  | nil => rfl
  | cons a h ih =>
    have hcons : fill level ts (a :: h) = (if a.isAt level then ts.map token else [a]) ++ fill level ts h := rfl
    rw [hcons,tokens_append,nesting_append,ih]
    cases a with
    | token t => rfl
    | place l m required =>
      split
      · rw [tokens_map,hts]
        rfl
      · rfl

end Held

namespace Scan

/-- What holds of a scan on its way through a text, where `b` brackets were open before the tokens that are still
held. -/
structure Sound (b : Nat) (s : Scan) (g : Margin := []) : Prop where
  margin : s.margin = g
  ended : s.ended = false
  streamEnd : Token.streamEnd ∉ Held.tokens s.held
  level : nesting b (Held.tokens s.held) = s.level
  sorted : s.indents.Pairwise (· > ·)
  places : ∀ l p required, Held.place l p required ∈ s.held → p.line ≤ s.cursor.mark.line ∧ l ≤ s.level

namespace Sound

variable {b : Nat} {g : Margin} {s s' : Scan}

lemma of_start (t : List Char) : Sound 0 (start ⟨t,g⟩) g where
  margin := rfl
  ended := rfl
  streamEnd := by simp [start,Held.tokens]
  level := rfl
  sorted := List.Pairwise.nil
  places := by simp [start]

lemma toward {p : Cursor} {a : Bool} (h : s.Sound b g) (hp : s.cursor.mark.line ≤ p.mark.line) :
    Sound b { s with cursor := p, keyAllowed := a } g :=
  { h with places := fun l m required hm => (h.places l m required hm).imp_left fun hl => Nat.le_trans hl hp }

lemma of_giveUp {p : Held → Bool} (hp : ∀ t, p (.token t) = false) (h : s.Sound b g)
    (hs : ((Held.giveUp p s.held).bind fun held => some { s with held := held }) = some s') : s'.Sound b g := by
  obtain ⟨held,hh,hs⟩ := Option.bind_eq_some_iff.mp hs
  cases hs
  have htokens := Held.tokens_of_giveUp hp hh
  exact { h with
    streamEnd := by rw [htokens]; exact h.streamEnd
    level := by rw [htokens]; exact h.level
    places := fun l m required hm => h.places l m required (by
      rw [Held.eq_filter_of_giveUp hh] at hm
      exact (List.mem_filter.mp hm).1) }

lemma expire (h : s.Sound b g) (hs : s.expire = some s') : s'.Sound b g := h.of_giveUp (fun _ => rfl) hs

lemma dropPlace (h : s.Sound b g) (hs : s.dropPlace = some s') : s'.Sound b g := h.of_giveUp (fun _ => rfl) hs

lemma savePlace (h : s.Sound b g) (hs : s.savePlace = some s') : s'.Sound b g := by
  unfold Scan.savePlace at hs
  split at hs
  · obtain ⟨s₁,h₁,hs⟩ := Option.bind_eq_some_iff.mp hs
    have h' := h.dropPlace h₁
    cases hs
    exact { h' with
      streamEnd := by simpa [Held.tokens] using h'.streamEnd
      level := by simpa [Held.tokens] using h'.level
      places := fun l m required hm => by
        rcases List.mem_append.mp hm with hm | hm
        · exact h'.places l m required hm
        · cases List.mem_singleton.mp hm
          exact ⟨Nat.le_refl _,Nat.le_refl _⟩ }
  · cases hs
    exact h

/-- Tokens put at the end, which open and close no brackets. -/
lemma held_append (h : s.Sound b g) (ts : List Token) (hlevel : ∀ n, nesting n ts = n) (hend : Token.streamEnd ∉ ts) :
    Sound b { s with held := s.held ++ ts.map .token } g :=
  { h with
    streamEnd := by simpa using ⟨h.streamEnd,hend⟩
    level := by
      rw [Held.tokens_append,Held.tokens_map,nesting_append,hlevel]
      exact h.level
    places := fun l m required hm => h.places l m required (by simpa using hm) }

lemma unroll (h : s.Sound b g) (limit : Nat) : (s.unroll limit).Sound b g := by
  unfold Scan.unroll
  split
  · exact h
  · rw [closeFrom_eq]
    have hends (k : Nat) : List.replicate k (Held.token .blockEnd) = (List.replicate k .blockEnd).map .token := by simp
    have hlevel (k n : Nat) : nesting n (List.replicate k .blockEnd) = n := by
      induction k with
      | zero => rfl
      | succ k ih => exact ih
    rw [hends]
    have h' := h.held_append _ (hlevel (s.indents.takeWhile (limit ≤ ·)).length) (by simp)
    exact { h' with sorted := h.sorted.sublist (List.dropWhile_sublist _) }

lemma cons_sorted {i : Nat} (h : s.indents.Pairwise (· > ·)) (hi : s.opensBlock i = true) :
    (i :: s.indents).Pairwise (· > ·) := by
  refine List.pairwise_cons.mpr ⟨fun j hj => ?_,h⟩
  simp only [opensBlock,Bool.and_eq_true] at hi
  cases his : s.indents with
  | nil => simp [his] at hj
  | cons k is =>
    rw [his] at hj h hi
    have hk : k < i := by simpa using hi.2
    rcases List.mem_cons.mp hj with rfl | hj
    · exact hk
    · exact Nat.lt_trans ((List.pairwise_cons.mp h).1 j hj) hk

lemma roll (h : s.Sound b g) {t : Token} (ht : ∀ n, t.nest n = n) (hend : t ≠ .streamEnd) : (s.roll t).Sound b g := by
  unfold Scan.roll
  split
  · next hopens =>
    have h' := h.held_append [t] ht (by simpa using Ne.symm hend)
    exact { h' with sorted := cons_sorted h.sorted hopens }
  · exact h

lemma rollAllowed (h : s.Sound b g) {t : Token} (ht : ∀ n, t.nest n = n) (hend : t ≠ .streamEnd)
    (hs : s.rollAllowed t = some s') : s'.Sound b g := by
  unfold Scan.rollAllowed at hs
  split at hs
  · cases hs
    exact h
  · split at hs
    · cases hs
      exact h.roll ht hend
    · cases hs

lemma keyed (h : s.Sound b g) (column : Nat) : (s.keyed column).Sound b g := by
  have hlevel (n : Nat) : nesting n (if s.opensBlock column then [.blockMappingStart,.key] else [.key]) = n := by
    split <;> rfl
  have hmem {t : Token} (ht : t ∈ if s.opensBlock column then [.blockMappingStart,.key] else [Token.key]) :
      t ≠ .streamEnd := by
    rintro rfl
    split at ht <;> simp at ht
  refine { margin := h.margin, ended := h.ended, streamEnd := ?_, level := ?_, sorted := ?_, places := ?_ }
  · intro hend
    rcases Held.mem_fill (Held.mem_tokens_iff.mp hend) with hend | ⟨t,ht,heq⟩
    · exact h.streamEnd (Held.mem_tokens_iff.mpr hend)
    · cases heq
      exact hmem ht rfl
  · exact (Held.nesting_fill hlevel s.held).trans h.level
  · change (if s.opensBlock column = true then _ else _ : List Nat).Pairwise _
    split
    · next hopens => exact cons_sorted h.sorted hopens
    · exact h.sorted
  · intro l m required hm
    rcases Held.mem_fill hm with hm | ⟨t,-,heq⟩
    · exact h.places l m required hm
    · cases heq

/-- A token behind which `l` brackets are open, where the places lie inside of no more. -/
lemma push (h : s.Sound b g) {t : Token} (hend : t ≠ .streamEnd) {l : Nat} (hl : t.nest s.level = l)
    (hplaces : ∀ k m required, Held.place k m required ∈ s.held → k ≤ l) {p : Cursor}
    (hp : s.cursor.mark.line ≤ p.mark.line) (a : Bool) :
    Sound b { s with cursor := p, level := l, keyAllowed := a, held := s.held ++ [.token t] } g where
  margin := h.margin
  ended := h.ended
  streamEnd := by simpa [Held.tokens] using ⟨h.streamEnd,Ne.symm hend⟩
  level := by
    rw [Held.tokens_append,nesting_append,h.level]
    exact hl
  sorted := h.sorted
  places := fun k m required hm => by
    have hm' : Held.place k m required ∈ s.held := by simpa using hm
    exact ⟨Nat.le_trans (h.places k m required hm').1 hp,hplaces k m required hm'⟩

/-- A token that opens and closes no brackets. -/
lemma push_level (h : s.Sound b g) {t : Token} (hend : t ≠ .streamEnd) (hl : t.nest s.level = s.level) {p : Cursor}
    (hp : s.cursor.mark.line ≤ p.mark.line) (a : Bool) :
    Sound b { s with cursor := p, keyAllowed := a, held := s.held ++ [.token t] } g :=
  h.push hend hl (fun k m required hm => (h.places k m required hm).2) hp a

lemma behind (h : s.Sound b g) {t : Token} (hend : t ≠ .streamEnd) {l : Nat → Nat} (hl : t.nest s.level = l s.level)
    (hplaces : ∀ k m required, Held.place k m required ∈ s.held → k ≤ l s.level) (n : Nat) (a : Nat → Bool) :
    (behind n l a t s).Sound b g :=
  h.push (p := (s.skip n).cursor) hend hl hplaces (Nat.le_refl s.cursor.mark.line) (a s.level)

lemma behind_level (h : s.Sound b g) {t : Token} (hend : t ≠ .streamEnd) (hl : t.nest s.level = s.level) (n : Nat)
    (a : Nat → Bool) : (Scan.behind n id a t s).Sound b g :=
  h.behind (l := id) hend hl (fun k m required hm => (h.places k m required hm).2) n a

/-- No place of the current level is left. -/
lemma lt_of_dropPlace (h : s.Sound b g) (hs : s.dropPlace = some s') (k : Nat) (m : Mark) (required : Bool)
    (hm : Held.place k m required ∈ s'.held) : k < s.level := by
  obtain ⟨held,hheld,hs⟩ := Option.bind_eq_some_iff.mp hs
  cases hs
  change Held.place k m required ∈ held at hm
  rw [Held.eq_filter_of_giveUp hheld] at hm
  obtain ⟨hm,hlevel⟩ := List.mem_filter.mp hm
  have hne : k ≠ s.level := by simpa [Held.isAt] using hlevel
  exact Nat.lt_of_le_of_ne (h.places k m required hm).2 hne

lemma word (h : s.Sound b g) {read : List Char → Option (Token × List Char)}
    (hread : ∀ t r, read s.cursor.rest = some (t,r) → t ≠ .streamEnd ∧ ∀ n, t.nest n = n) (hs : s.word read = some s') :
    s'.Sound b g := by
  obtain ⟨s₁,h₁,hs⟩ := Option.bind_eq_some_iff.mp hs
  obtain ⟨⟨t,r'⟩,hr,hs⟩ := Option.bind_eq_some_iff.mp hs
  dsimp only at hs
  split at hs
  · cases hs
  · rw [(reheld_of_savePlace h₁).cursor] at hr
    obtain ⟨hend,hlevel⟩ := hread t r' hr
    cases hs
    exact (h.savePlace h₁).push_level (p := (s₁.skip _).cursor) hend (hlevel s₁.level) (Nat.le_refl s₁.cursor.mark.line)
      false

lemma quotedScalar (h : s.Sound b g) {read : Margin → Cursor → Option (List Char × Cursor)}
    (hread : ∀ t q, read g s.cursor = some (t,q) → s.cursor.mark.line ≤ q.mark.line)
    (hs : s.quotedScalar read = some s') : s'.Sound b g := by
  obtain ⟨s₁,h₁,hs⟩ := Option.bind_eq_some_iff.mp hs
  obtain ⟨⟨t,q⟩,hr,hs⟩ := Option.bind_eq_some_iff.mp hs
  have hs₁ := h.savePlace h₁
  have hcursor := (reheld_of_savePlace h₁).cursor
  rw [hs₁.margin,hcursor] at hr
  cases hs
  exact hs₁.push_level (t := .scalar t false) Token.noConfusion rfl (hcursor ▸ hread t q hr) false

lemma plainScalar (h : s.Sound b g) (hs : s.plainScalar = some s') : s'.Sound b g := by
  obtain ⟨s₁,h₁,hs⟩ := Option.bind_eq_some_iff.mp hs
  obtain ⟨⟨t,broken,q⟩,hr,hs⟩ := Option.bind_eq_some_iff.mp hs
  have hs₁ := h.savePlace h₁
  rw [hs₁.margin] at hr
  obtain ⟨v,-,hmark⟩ := plainFrom_mark hr
  cases hs
  exact hs₁.push_level (t := .scalar t true) Token.noConfusion rfl (hmark ▸ Mark.line_le_foldl v s₁.cursor.mark) broken

lemma blockScalar (h : s.Sound b g) {folded : Bool} (hs : s.blockScalar folded = some s') : s'.Sound b g := by
  obtain ⟨s₁,h₁,hs⟩ := Option.bind_eq_some_iff.mp hs
  obtain ⟨⟨t,q⟩,hr,hs⟩ := Option.bind_eq_some_iff.mp hs
  dsimp only at hs
  split at hs
  · cases hs
  · cases hs
    exact (h.dropPlace h₁).push_level (t := .scalar t false) Token.noConfusion rfl (Block.scalar_line hr) true

lemma directive (h : s.Sound b g) (hs : s.directive = some s') : s'.Sound b g := by
  obtain ⟨s₁,h₁,hs⟩ := Option.bind_eq_some_iff.mp hs
  obtain ⟨⟨t,r⟩,hr,hs⟩ := Option.bind_eq_some_iff.mp hs
  dsimp only at hs
  split at hs
  · cases hs
  · have hkind : t ≠ .streamEnd ∧ ∀ n, t.nest n = n := by
      rcases Line.exists_of_directive hr with ⟨_,_,rfl⟩ | ⟨_,_,rfl⟩ <;> exact ⟨Token.noConfusion,fun _ => rfl⟩
    cases hs
    exact ((h.unroll 0).dropPlace h₁).push_level (p := ⟨s₁.cursor.mark.nextLine,r.tail⟩) hkind.1 (hkind.2 s₁.level)
      (Nat.le_succ _) false

lemma documentMark (h : s.Sound b g) (last : Bool)
    (hs : s.documentMark (if last then .documentEnd else .documentStart) = some s') :
    s'.Sound b g := by
  obtain ⟨s₁,h₁,hs⟩ := Option.bind_eq_some_iff.mp hs
  cases hs
  exact ((h.unroll 0).dropPlace h₁).behind_level (by cases last <;> simp) (by cases last <;> rfl) 3 fun _ => false

lemma read (h : s.Sound b g) {k : Kind} (hs : s.read k = some s') : s'.Sound b g := by
  cases k with
  | flowStart mapping =>
    obtain ⟨s₁,h₁,hs⟩ := Option.bind_eq_some_iff.mp hs
    cases hs
    have hs₁ := h.savePlace h₁
    exact hs₁.behind (l := (·+1)) (by cases mapping <;> simp) (by cases mapping <;> rfl)
      (fun k m required hm => Nat.le_succ_of_le (hs₁.places k m required hm).2) 1 fun _ => true
  | flowEnd mapping =>
    obtain ⟨s₁,h₁,hs⟩ := Option.bind_eq_some_iff.mp hs
    cases hs
    have hlevel := (reheld_of_dropPlace h₁).level
    exact (h.dropPlace h₁).behind (l := (·-1)) (by cases mapping <;> simp) (by cases mapping <;> rfl)
      (fun k m required hm => Nat.le_sub_one_of_lt (hlevel ▸ h.lt_of_dropPlace h₁ k m required hm)) 1 fun _ => false
  | flowEntry =>
    obtain ⟨s₁,h₁,hs⟩ := Option.bind_eq_some_iff.mp hs
    cases hs
    exact (h.dropPlace h₁).behind_level Token.noConfusion rfl 1 fun _ => true
  | blockEntry =>
    obtain ⟨s₁,h₁,hs⟩ := Option.bind_eq_some_iff.mp hs
    obtain ⟨s₂,h₂,hs⟩ := Option.bind_eq_some_iff.mp hs
    cases hs
    exact ((h.rollAllowed (fun _ => rfl) Token.noConfusion h₁).dropPlace h₂).behind_level Token.noConfusion rfl 1
      fun _ => true
  | key =>
    obtain ⟨s₁,h₁,hs⟩ := Option.bind_eq_some_iff.mp hs
    obtain ⟨s₂,h₂,hs⟩ := Option.bind_eq_some_iff.mp hs
    cases hs
    exact ((h.rollAllowed (fun _ => rfl) Token.noConfusion h₁).dropPlace h₂).behind_level Token.noConfusion rfl 1
      isOutside
  | value =>
    change s.value = some s' at hs
    cases hplace : Held.columnAt? s.level s.held with
    | none =>
      rw [value_of_none hplace] at hs
      obtain ⟨s₁,h₁,hs⟩ := Option.bind_eq_some_iff.mp hs
      cases hs
      exact (h.rollAllowed (fun _ => rfl) Token.noConfusion h₁).behind_level Token.noConfusion rfl 1 isOutside
    | some column =>
      rw [value_of_some hplace] at hs
      cases hs
      exact (h.keyed column).behind_level Token.noConfusion rfl 1 fun _ => false
  | name anchor =>
    refine h.word (fun t r hr => ?_) hs
    obtain ⟨⟨name,r'⟩,-,hr⟩ := Option.bind_eq_some_iff.mp hr
    cases hr
    cases anchor <;> exact ⟨Token.noConfusion,fun _ => rfl⟩
  | tag =>
    refine h.word (fun t r hr => ?_) hs
    obtain ⟨handle,suffix,rfl⟩ := Line.exists_of_tag hr
    exact ⟨Token.noConfusion,fun _ => rfl⟩
  | blockScalar folded => exact h.blockScalar hs
  | singleQuoted =>
    refine h.quotedScalar (fun t q hq => ?_) hs
    rw [singleQuoted] at hq
    split_ifs at hq
    exact (singleFrom_line hq : (s.cursor.mark.right 1).line ≤ q.mark.line)
  | doubleQuoted =>
    refine h.quotedScalar (fun t q hq => ?_) hs
    rw [doubleQuoted] at hq
    split_ifs at hq
    exact (doubleFrom_line hq : (s.cursor.mark.right 1).line ≤ q.mark.line)
  | plainScalar => exact h.plainScalar hs

lemma token (h : s.Sound b g) {c : Char} {r : List Char} (hs : s.token c r = some s') : s'.Sound b g := by
  rw [token_eq] at hs
  split_ifs at hs
  · exact h.directive hs
  · exact h.documentMark false hs
  · exact h.documentMark true hs
  · obtain ⟨k,-,hs⟩ := Option.bind_eq_some_iff.mp hs
    exact h.read hs

lemma toNext (h : s.Sound b g) : s.toNext.Sound b g :=
  h.toward (nextFrom_line rfl)

end Sound
end Scan
end Keyring.Yaml
