import Keyring.Proofs.Yaml.Seam.Scalar

/-! Tokens of texts with more text behind them. -/
namespace Keyring.Yaml.Scan

/-- The same scan with more text behind. -/
def append (s : Scan) (y : List Char) : Scan := { s with cursor := s.cursor.append y }

variable {s s' : Scan} {y r : List Char} {c : Char}

/-- What is held back may be given up before more text is put behind, or after. -/
lemma giveUp_append (p : Held → Bool) (s : Scan) (y : List Char) :
    ((Held.giveUp p s.held).bind fun held => some { s.append y with held := held }) =
      ((Held.giveUp p s.held).bind fun held => some { s with held := held }).map (·.append y) := by
  cases Held.giveUp p s.held <;> rfl

lemma expire_append (s : Scan) (y : List Char) : (s.append y).expire = s.expire.map (·.append y) :=
  giveUp_append (·.isStale s.cursor.mark) s y

lemma dropPlace_append (s : Scan) (y : List Char) : (s.append y).dropPlace = s.dropPlace.map (·.append y) :=
  giveUp_append (·.isAt s.level) s y

lemma savePlace_append (s : Scan) (y : List Char) : (s.append y).savePlace = s.savePlace.map (·.append y) := by
  unfold savePlace
  rw [dropPlace_append]
  change (if s.keyAllowed = true then _ else _) = _
  split
  · cases s.dropPlace <;> rfl
  · rfl

lemma unroll_append (s : Scan) (y : List Char) (limit : Nat) :
    (s.append y).unroll limit = (s.unroll limit).append y := by
  unfold unroll
  change (if s.inFlow = true then _ else _) = _
  split <;> rfl

lemma roll_append (s : Scan) (y : List Char) (t : Token) : (s.append y).roll t = (s.roll t).append y := by
  unfold roll
  change (if s.opensBlock s.column = true then _ else _) = _
  split <;> rfl

lemma rollAllowed_append (s : Scan) (y : List Char) (t : Token) :
    (s.append y).rollAllowed t = (s.rollAllowed t).map (·.append y) := by
  unfold rollAllowed
  rw [roll_append]
  change (if s.inFlow = true then _ else if s.keyAllowed = true then _ else _) = _
  split
  · rfl
  · split <;> rfl

lemma skip_append {n : Nat} (h : n ≤ s.cursor.rest.length) (y : List Char) :
    (s.append y).skip n = (s.skip n).append y := by
  simp only [skip,append,Cursor.append,List.drop_append_of_le_length h]

lemma cursor_unroll (s : Scan) (limit : Nat) : (s.unroll limit).cursor = s.cursor := by
  unfold unroll
  split <;> rfl

lemma cursor_roll (s : Scan) (t : Token) : (s.roll t).cursor = s.cursor := by
  unfold roll
  split <;> rfl

lemma cursor_of_rollAllowed {t : Token} (h : s.rollAllowed t = some s') : s'.cursor = s.cursor := by
  unfold rollAllowed at h
  split at h
  · cases h
    rfl
  · split at h
    · cases h
      exact cursor_roll s t
    · cases h

/-- An operation that goes on behind `n` characters of the text, whatever stands behind it. -/
def Passes (n : Nat) (f : Scan → Option Scan) : Prop :=
  ∀ s : Scan, n ≤ s.cursor.rest.length → ∀ y, f (s.append y) = (f s).map (·.append y) ∧
    ∀ s', f s = some s' → s'.cursor.rest = s.cursor.rest.drop n

section

variable {n : Nat} {a : Nat → Bool} {l : Nat → Nat} {t : Token}

/-- What becomes of a scan behind a token of `n` characters. -/
def behind (n : Nat) (l : Nat → Nat) (a : Nat → Bool) (t : Token) (s : Scan) : Scan :=
  ({ s with level := l s.level }.allow (a s.level)).skip n |>.push t

lemma behind_append (h : n ≤ s.cursor.rest.length) (y : List Char) :
    behind n l a t (s.append y) = (behind n l a t s).append y := by
  simp only [behind,push,skip,allow,append,Cursor.append,List.drop_append_of_le_length h]

/-- An operation on what is held back and on the blocks, and then a token of `n` characters. -/
lemma passes_behind {f : Scan → Option Scan} (hf : ∀ s y, f (s.append y) = (f s).map (·.append y))
    (hcursor : ∀ s s', f s = some s' → s'.cursor = s.cursor) :
      Passes n fun s => (f s).bind fun s => some (behind n l a t s) := by
  intro s hn y
  constructor
  · change (f (s.append y)).bind _ = ((f s).bind _).map _
    rw [hf]
    cases hs : f s with
    | none => rfl
    | some s₁ =>
      have hn' : n ≤ s₁.cursor.rest.length := by rwa [hcursor s s₁ hs]
      rw [Option.map_some,Option.bind_some,Option.bind_some,behind_append hn' y]
      rfl
  · intro s' hs'
    obtain ⟨s₁,h₁,h⟩ := Option.bind_eq_some_iff.mp hs'
    cases h
    exact congrArg (fun p : Cursor => p.rest.drop n) (hcursor s s₁ h₁)

end

/-- Outside of brackets. -/
def isOutside (level : Nat) : Bool := !decide (0 < level)

lemma passes_flowStart (t : Token) : Passes 1 (·.flowStart t) :=
  passes_behind (l := (·+1)) (a := fun _ => true) savePlace_append fun _ _ h => (reheld_of_savePlace h).cursor

lemma passes_flowEnd (t : Token) : Passes 1 (·.flowEnd t) :=
  passes_behind (l := (·-1)) (a := fun _ => false) dropPlace_append fun _ _ h => (reheld_of_dropPlace h).cursor

lemma passes_flowEntry : Passes 1 flowEntry :=
  passes_behind (l := id) (a := fun _ => true) dropPlace_append fun _ _ h => (reheld_of_dropPlace h).cursor

lemma passes_documentMark (t : Token) : Passes 3 (·.documentMark t) :=
  passes_behind (f := fun s => (s.unroll 0).dropPlace) (l := id) (a := fun _ => false)
    (fun s y => by rw [unroll_append,dropPlace_append])
    fun s _ h => (reheld_of_dropPlace h).cursor.trans (cursor_unroll s 0)

/-- The marker of an entry or of a key drops the place before it. -/
lemma passes_marker (opening t : Token) (a : Nat → Bool) : Passes 1 fun s =>
    (s.rollAllowed opening).bind fun s => s.dropPlace.bind fun s => some (behind 1 id a t s) := by
  have hpasses : Passes 1 fun s => ((s.rollAllowed opening).bind dropPlace).bind fun s => some (behind 1 id a t s) := by
    refine passes_behind (fun s y => ?_) fun s s' h => ?_
    · rw [rollAllowed_append]
      cases s.rollAllowed opening with
      | none => rfl
      | some s₁ => exact dropPlace_append s₁ y
    · obtain ⟨s₁,h₁,h⟩ := Option.bind_eq_some_iff.mp h
      exact (reheld_of_dropPlace h).cursor.trans (cursor_of_rollAllowed h₁)
  simpa only [Option.bind_assoc] using hpasses

lemma passes_blockEntry : Passes 1 blockEntry := passes_marker .blockSequenceStart .blockEntry fun _ => true

lemma passes_key : Passes 1 key := passes_marker .blockMappingStart .key isOutside

/-- A scan in which a key begins at the place of the current level. -/
def keyed (column : Nat) (s : Scan) : Scan :=
  { s with held := Held.fill s.level (if s.opensBlock column then [.blockMappingStart,.key] else [.key]) s.held,
           indents := if s.opensBlock column then column :: s.indents else s.indents }

lemma value_of_some {column : Nat} (h : Held.columnAt? s.level s.held = some column) :
    s.value = some (behind 1 id (fun _ => false) .value (s.keyed column)) := by
  unfold value
  rw [h]
  rfl

lemma value_of_none (h : Held.columnAt? s.level s.held = none) :
    s.value = (s.rollAllowed .blockMappingStart).bind fun s => some (behind 1 id isOutside .value s) := by
  unfold value
  rw [h]
  rfl

lemma passes_value : Passes 1 value := by
  have hnone : Passes 1 fun s => (s.rollAllowed .blockMappingStart).bind fun s =>
      some (behind 1 id isOutside .value s) :=
    passes_behind (fun s y => rollAllowed_append s y _) fun _ _ => cursor_of_rollAllowed
  intro s hn y
  cases hplace : Held.columnAt? s.level s.held with
  | none =>
    rw [value_of_none hplace,value_of_none (s := s.append y) hplace]
    exact hnone s hn y
  | some column =>
    rw [value_of_some hplace,value_of_some (s := s.append y) hplace]
    refine ⟨congrArg some (behind_append (s := s.keyed column) hn y),fun s' hs' => ?_⟩
    cases hs'
    rfl

lemma word_append {read : List Char → Option (Token × List Char)} (hm : s.margin = [])
    (hread : ∀ t r', read s.cursor.rest = some (t,r') → r' <:+ s.cursor.rest ∧ Sealed y r' ∧
      read (s.cursor.rest ++ y) = some (t,r' ++ y)) (hs : s.word read = some s') :
    s'.cursor.rest <:+ s.cursor.rest ∧ Sealed y s'.cursor.rest ∧ (s.append y).word read = some (s'.append y) := by
  obtain ⟨s₁,h₁,hs⟩ := Option.bind_eq_some_iff.mp hs
  obtain ⟨⟨t,r'⟩,hr,hs⟩ := Option.bind_eq_some_iff.mp hs
  have hcursor := (reheld_of_savePlace h₁).cursor
  rw [hcursor] at hr
  obtain ⟨hsuffix,hsealed,hr'⟩ := hread t r' hr
  have hmargin : s₁.margin = [] := (reheld_of_savePlace h₁).margin.trans hm
  dsimp only at hs
  rw [hmargin,Margin.lacks_nil,if_neg Bool.false_ne_true] at hs
  cases hs
  have hrest : s.cursor.rest.drop (s.cursor.rest.length-r'.length) = r' := by
    obtain ⟨p,hp⟩ := hsuffix
    rw [← hp]
    simp
  have hdrop : ((((s₁.allow false).skip (s₁.cursor.rest.length-r'.length)).push t)).cursor.rest = r' := by
    change s₁.cursor.rest.drop _ = r'
    rw [hcursor,hrest]
  refine ⟨by rwa [hdrop],by rwa [hdrop],?_⟩
  unfold word
  rw [savePlace_append,h₁]
  have hr'' : read (s₁.append y).cursor.rest = some (t,r' ++ y) := by
    change read (s₁.cursor.rest ++ y) = _
    rw [hcursor,hr']
  have hmargin' : (s₁.append y).margin = [] := hmargin
  have hlength : (s₁.append y).cursor.rest.length-(r' ++ y).length = s₁.cursor.rest.length-r'.length := by
    change (s₁.cursor.rest ++ y).length-_ = _
    simp only [List.length_append]
    omega
  simp only [Option.map_some,Option.bind_eq_bind,Option.bind_some,hr'',hmargin',Margin.lacks_nil,hlength]
  have hskip := skip_append (s := s₁.allow false) (Nat.sub_le s₁.cursor.rest.length r'.length) y
  exact congrArg (fun s : Scan => some (s.push t)) hskip

/-- A scalar in quotes ends where it did if what stands behind the opening quote is read in this way. -/
lemma quotedScalar_append {read : Margin → Cursor → Option (List Char × Cursor)}
    {scan : Mark → List Char → Option (List Char × Cursor)} (hm : s.margin = []) (hrest : s.cursor.rest = c :: r)
    (hread : ∀ m r, read [] ⟨m,c :: r⟩ = scan (m.right 1) r)
    (hscan : ∀ m t q, scan m r = some (t,q) → q.rest <:+ r ∧ Sealed y q.rest ∧ scan m (r ++ y) = some (t,q.append y))
    (hs : s.quotedScalar read = some s') : s'.cursor.rest <:+ s.cursor.rest ∧ Sealed y s'.cursor.rest ∧
      (s.append y).quotedScalar read = some (s'.append y) := by
  obtain ⟨s₁,h₁,hs⟩ := Option.bind_eq_some_iff.mp hs
  obtain ⟨⟨t,q⟩,hr,hs⟩ := Option.bind_eq_some_iff.mp hs
  have hcursor : s₁.cursor = ⟨s.cursor.mark,c :: r⟩ := by rw [(reheld_of_savePlace h₁).cursor,← hrest]
  have hmargin : s₁.margin = [] := (reheld_of_savePlace h₁).margin.trans hm
  rw [hcursor,hmargin,hread] at hr
  obtain ⟨hsuffix,hsealed,hr'⟩ := hscan _ t q hr
  cases hs
  refine ⟨hrest ▸ hsuffix.trans (List.suffix_cons c r),hsealed,?_⟩
  have hr'' : read (s₁.append y).margin (s₁.append y).cursor = some (t,q.append y) := by
    change read s₁.margin (s₁.cursor.append y) = _
    rw [hcursor,hmargin,← hr']
    exact hread _ _
  unfold quotedScalar
  rw [savePlace_append,h₁]
  simp only [Option.map_some,Option.bind_eq_bind,Option.bind_some,hr'']
  rfl

lemma passes_of_sealed {n : Nat} {f : Scan → Option Scan} (hf : Passes n f) (h : Sealed y s.cursor.rest)
    (hn : n ≤ s.cursor.rest.length) (hlf : '\n' ∉ s.cursor.rest.take n) (hs : f s = some s') :
    s'.cursor.rest <:+ s.cursor.rest ∧ Sealed y s'.cursor.rest ∧ f (s.append y) = some (s'.append y) := by
  obtain ⟨happend,hrest⟩ := hf s hn y
  have hsuffix : s'.cursor.rest <:+ s.cursor.rest := by
    rw [hrest s' hs]
    exact List.drop_suffix n _
  refine ⟨hsuffix,h.of_suffix hsuffix fun hnil hlast => hlf ?_,by rw [happend,hs]; rfl⟩
  have hdrop : s.cursor.rest.drop n = [] := by rw [← hrest s' hs,hnil]
  have htake := List.take_append_drop n s.cursor.rest
  rw [hdrop,List.append_nil] at htake
  rw [htake]
  exact List.mem_of_getLast? hlast

lemma named_append {make : List Char → Token} (h : Sealed y (c :: r)) (hc : c ≠ '\n') {t : Token} {r' : List Char}
    (hr : named make (c :: r) = some (t,r')) : r' <:+ c :: r ∧ Sealed y r' ∧
      named make (c :: r ++ y) = some (t,r' ++ y) := by
  obtain ⟨⟨name,r₁⟩,hname,hr⟩ := Option.bind_eq_some_iff.mp hr
  cases hr
  obtain ⟨hs,h',hname'⟩ := Line.isLocal_name (h.tail hc) hname
  refine ⟨hs.trans (List.suffix_cons c r),h',?_⟩
  rw [List.cons_append,named,List.tail_cons,hname']
  rfl

lemma startsPlain_append {flow : Bool} (h : Sealed y (c :: r)) (hc : c ≠ '\n') :
    startsPlain flow (c :: (r ++ y)) = startsPlain flow (c :: r) := by
  have h' := h.tail hc
  simp only [startsPlain,h'.atSpace_append]
  cases r with
  | nil =>
    obtain ⟨y,rfl⟩ := h'.exists_of_nil
    rfl
  | cons d r => rfl

/-- The kinds of tokens, except those that stand in the first column only. -/
inductive Kind where
  | flowStart (mapping : Bool)
  | flowEnd (mapping : Bool)
  | flowEntry
  | blockEntry
  | key
  | value
  | name (anchor : Bool)
  | tag
  | blockScalar (folded : Bool)
  | singleQuoted
  | doubleQuoted
  | plainScalar

/-- The kind of the token that begins with `c`. -/
def kind? (flow : Bool) (c : Char) (r : List Char) : Option Kind :=
  if c = '[' then some (.flowStart false)
  else if c = '{' then some (.flowStart true)
  else if c = ']' then some (.flowEnd false)
  else if c = '}' then some (.flowEnd true)
  else if c = ',' then some .flowEntry
  else if c = '-' ∧ atSpace r then some .blockEntry
  else if c = '?' ∧ (flow ∨ atSpace r) then some .key
  else if c = ':' ∧ (flow ∨ atSpace r) then some .value
  else if c = '*' then some (.name false)
  else if c = '&' then some (.name true)
  else if c = '!' then some .tag
  else if c = '|' ∧ !flow then some (.blockScalar false)
  else if c = '>' ∧ !flow then some (.blockScalar true)
  else if c = '\'' then some .singleQuoted
  else if c = '"' then some .doubleQuoted
  else if startsPlain flow (c :: r) then some .plainScalar
  else none

/-- Reads a token of the kind. -/
def read (s : Scan) : Kind → Option Scan
  | .flowStart mapping => s.flowStart (if mapping then .flowMappingStart else .flowSequenceStart)
  | .flowEnd mapping => s.flowEnd (if mapping then .flowMappingEnd else .flowSequenceEnd)
  | .flowEntry => s.flowEntry
  | .blockEntry => s.blockEntry
  | .key => s.key
  | .value => s.value
  | .name anchor => s.word (named (if anchor then .anchor else .alias))
  | .tag => s.word (Line.tag s.inFlow)
  | .blockScalar folded => s.blockScalar folded
  | .singleQuoted => s.quotedScalar Yaml.singleQuoted
  | .doubleQuoted => s.quotedScalar Yaml.doubleQuoted
  | .plainScalar => s.plainScalar

lemma token_eq (s : Scan) (c : Char) (r : List Char) : s.token c r =
    if s.column = 0 ∧ c = '%' then s.directive
    else if s.column = 0 ∧ isDocumentMark (c :: r) then
      s.documentMark (if c = '-' then .documentStart else .documentEnd)
    else (kind? s.inFlow c r).bind s.read := by
  have hite {p : Prop} [Decidable p] (k : Kind) (o : Option Kind) :
      (if p then some k else o).bind s.read = if p then s.read k else o.bind s.read := by
    split <;> rfl
  unfold token kind?
  repeat rw [hite]
  rfl

lemma kind?_append {flow : Bool} (h : Sealed y (c :: r)) (hc : c ≠ '\n') :
    kind? flow c (r ++ y) = kind? flow c r := by
  simp only [kind?,(h.tail hc).atSpace_append,startsPlain_append h hc]

lemma length_of_isDocumentMark {r : List Char} (h : isDocumentMark r = true) :
    3 ≤ r.length ∧ '\n' ∉ r.take 3 := by
  unfold isDocumentMark at h
  split at h
  · simp
  · simp
  · cases h

/-- Most tokens end where they did. A directive, a block scalar or a plain scalar may go on. -/
lemma token_append (hm : s.margin = []) (hrest : s.cursor.rest = c :: r) (hc : c ≠ '\n') (h : Sealed y (c :: r))
    (hs : s.token c r = some s') :
    (s'.cursor.rest <:+ s.cursor.rest ∧ Sealed y s'.cursor.rest ∧ (s.append y).token c (r ++ y) = some (s'.append y)) ∨
      (s.directive = some s' ∧ (s.append y).token c (r ++ y) = (s.append y).directive) ∨
      (∃ folded, s.blockScalar folded = some s' ∧
        (s.append y).token c (r ++ y) = (s.append y).blockScalar folded) ∨
      (s.plainScalar = some s' ∧ (s.append y).token c (r ++ y) = (s.append y).plainScalar) := by
  have hdoc : isDocumentMark (c :: (r ++ y)) = isDocumentMark (c :: r) := h.isDocumentMark_append
  have hcolumn : (s.append y).column = s.column := rfl
  have hflow : (s.append y).inFlow = s.inFlow := rfl
  have hsealed : Sealed y s.cursor.rest := by rwa [hrest]
  rw [token_eq] at hs ⊢
  rw [hdoc,hcolumn,hflow,kind?_append h hc]
  by_cases hpercent : s.column = 0 ∧ c = '%'
  · rw [if_pos hpercent] at hs ⊢
    exact Or.inr (Or.inl ⟨hs,rfl⟩)
  rw [if_neg hpercent] at hs ⊢
  by_cases hmark : s.column = 0 ∧ isDocumentMark (c :: r) = true
  · rw [if_pos hmark] at hs ⊢
    obtain ⟨hn,hlf⟩ := length_of_isDocumentMark hmark.2
    rw [← hrest] at hn hlf
    exact Or.inl (passes_of_sealed (passes_documentMark _) hsealed hn hlf hs)
  rw [if_neg hmark] at hs ⊢
  obtain ⟨k,hk,hs⟩ := Option.bind_eq_some_iff.mp hs
  rw [hk,Option.bind_some]
  have hone {f : Scan → Option Scan} (hf : Passes 1 f) (hs : f s = some s') :=
    passes_of_sealed hf hsealed (by simp [hrest]) (by simpa [hrest] using Ne.symm hc) hs
  cases k with
  | flowStart mapping => exact Or.inl (hone (passes_flowStart _) hs)
  | flowEnd mapping => exact Or.inl (hone (passes_flowEnd _) hs)
  | flowEntry => exact Or.inl (hone passes_flowEntry hs)
  | blockEntry => exact Or.inl (hone passes_blockEntry hs)
  | key => exact Or.inl (hone passes_key hs)
  | value => exact Or.inl (hone passes_value hs)
  | name anchor => exact Or.inl (word_append hm (fun _ _ hr => hrest ▸ named_append h hc (hrest ▸ hr)) hs)
  | tag => exact Or.inl (word_append hm (fun _ _ hr => Line.isLocal_tag _ hsealed hr) hs)
  | blockScalar folded => exact Or.inr (Or.inr (Or.inl ⟨folded,hs,rfl⟩))
  | singleQuoted =>
    have hscan {m : Mark} {t : List Char} {q : Cursor} (hq : singleFrom [] .none m r = some (t,q)) :=
      singleFrom_append (fun _ => h.tail hc) hq
    exact Or.inl (quotedScalar_append hm hrest (fun _ _ => rfl) (fun _ _ _ => hscan) hs)
  | doubleQuoted =>
    have hscan {m : Mark} {t : List Char} {q : Cursor} (hq : doubleFrom [] .outside .none m r = some (t,q)) :=
      doubleFrom_append (fun _ => h.tail hc) hq
    exact Or.inl (quotedScalar_append hm hrest (fun _ _ => rfl) (fun _ _ _ => hscan) hs)
  | plainScalar => exact Or.inr (Or.inr (Or.inr ⟨hs,rfl⟩))

end Keyring.Yaml.Scan
