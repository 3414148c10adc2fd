import Keyring.Proofs.Yaml.Entry

/-! The tokens of lists of records. Blank lines and comments among the entries do not change them, and the last line of
the text need not be ended. -/
namespace Keyring.Yaml

/-- A line without content: blanks, or a comment in the first column. -/
def IsFiller (t : List Char) : Prop := (∃ n, t = List.replicate n ' ') ∨ ∃ c, t = '#' :: c ∧ ∀ d ∈ c, isPrintable d

/-- A part of a list of records: a line without content, or an entry. -/
inductive Part where
  | filler (text : List Char) (isFiller : IsFiller text)
  | entry (e : Entry)

namespace Part

/-- The text of a part, up to the end of its last line. -/
def text : Part → List Char
  | filler t _ => t
  | entry e => e.body

def content? : Part → Option Entry
  | filler _ _ => none
  | entry e => some e

/-- The entries among the parts. -/
def entries (ps : List Part) : List Entry := ps.filterMap content?

/-- Each part behind the end of the line before it. -/
def following (ps : List Part) : List Char := ps.flatMap fun p => '\n' :: p.text

lemma following_cons (p : Part) (ps : List Part) : following (p :: ps) = '\n' :: (p.text ++ following ps) := rfl

/-- Parts of which all but the last end their lines. -/
lemma following_lines (ps : List Part) (last : Part) :
    following (ps ++ [last]) = '\n' :: (ps.flatMap (fun p => p.text ++ ['\n']) ++ last.text) := by
  induction ps with
  | nil => simp [following]
  | cons p ps ih => simp [following_cons,ih]

lemma atLineEnd_following (ps : List Part) : AtLineEnd (following ps) := by
  cases ps with
  | nil => exact .inl rfl
  | cons p ps => exact .inr ⟨_,rfl⟩

lemma count_le (ps : List Part) : ((entries ps).map Entry.count).sum + ps.length ≤ (following ps).length := by
  induction ps with
  | nil => exact Nat.le_refl 0
  | cons p ps ih =>
    rw [following_cons]
    cases p with
    | filler t h =>
      simp only [entries,List.filterMap_cons,content?,List.length_cons,List.length_append] at ih ⊢
      omega
    | entry e =>
      have := e.count_le_body
      simp only [entries,List.filterMap_cons,content?,text,List.map_cons,List.sum_cons,List.length_cons,
        List.length_append] at ih ⊢
      omega

end Part

namespace Scan

variable {m : Mark} {r : List Char}

lemma nextFrom_comment {c : List Char} (hc : ∀ d ∈ c, isPrintable d) (hr : AtLineEnd r) (a : Bool) (m : Mark) :
    ∃ m', nextFrom false true a m (c ++ r) = nextFrom false false a m' r := by
  induction c generalizing m with
  | nil =>
    rcases hr with rfl | ⟨r,rfl⟩
    · exact ⟨m,rfl⟩
    · refine ⟨m,?_⟩
      rw [List.nil_append,nextFrom_break,nextFrom]
      simp [isBreak]
  | cons d c ih =>
    obtain ⟨m',h⟩ := ih (fun d hd => hc d (List.mem_cons_of_mem _ hd)) (m.after d)
    refine ⟨m',?_⟩
    rw [List.cons_append,nextFrom,if_neg (by simp [isBreak_of_isPrintable (hc d List.mem_cons_self)]),if_pos rfl,h]

/-- A line without content is passed over. -/
lemma nextFrom_filler {t : List Char} (h : IsFiller t) (hr : AtLineEnd r) (a : Bool) (m : Mark) :
    ∃ m', nextFrom false false a m (t ++ r) = nextFrom false false a m' r := by
  rcases h with ⟨n,rfl⟩ | ⟨c,rfl,hc⟩
  · induction n generalizing m with
    | zero => exact ⟨m,rfl⟩
    | succ n ih =>
      obtain ⟨m',h⟩ := ih (m.right 1)
      exact ⟨m',by rw [List.replicate_succ,List.cons_append,nextFrom_blank,h]⟩
  · obtain ⟨m',h⟩ := nextFrom_comment hc hr a (m.right 1)
    refine ⟨m',?_⟩
    rw [List.cons_append,nextFrom]
    simpa [isBreak] using h

/-- Behind the end of a line, the next token begins an entry. -/
lemma next_following (ps : List Part) (a : Bool) (m : Mark) :
    let p := (nextFrom false false a m (Part.following ps)).2
    p.rest = [] ∨ p.mark.column ≤ 0 ∧ p.rest.head? ≠ some '\t' := by
  induction ps generalizing a m with
  | nil => exact .inl rfl
  | cons p ps ih =>
    rw [Part.following_cons,nextFrom_break]
    cases p with
    | filler t h =>
      obtain ⟨m',hm'⟩ := nextFrom_filler h (Part.atLineEnd_following ps) (a || !false) m.nextLine
      rw [show Part.text (.filler t h) = t from rfl,hm']
      exact ih (a || !false) m'
    | entry e =>
      have hbody : (Part.entry e).text ++ Part.following ps =
          '-' :: ' ' :: (e.first.line ++ (Field.indented e.others ++ Part.following ps)) := by
        simp [Part.text,Entry.body]
      rw [hbody,nextFrom_of_precedes (.inr ⟨_,rfl⟩)]
      exact .inr ⟨Nat.le_refl 0,by simp⟩

lemma ends_following (ps : List Part) : Entry.Ends (Part.following ps) :=
  ⟨Part.atLineEnd_following ps,next_following ps false⟩

/-- The tokens of the entries among the parts, where the first of them closes `k` blocks. -/
def partTokens (k : Nat) (opening : List Token) : List Entry → List Token
  | [] => []
  | e :: es => List.replicate k .blockEnd ++ (opening ++ e.tokens) ++ es.flatMap fun e => .blockEnd :: e.tokens

/-- From here on, the entries of the parts are read, and nothing else. -/
def EmitsParts (ps : List Part) (s : Scan) (is : List Nat) (k : Nat) (opening : List Token) : Prop :=
  ∃ m' a', Emits ((Part.entries ps).map Entry.count).sum s (partTokens k opening (Part.entries ps))
    (between m' [] (if Part.entries ps = [] then is else [2,0]) a')

variable {is : List Nat} {k : Nat} {opening : List Token}

lemma partTokens_eq (es : List Entry) : partTokens 1 [] es = es.flatMap fun e => .blockEnd :: e.tokens := by
  cases es <;> rfl

lemma emits_part (p : Part) {ps : List Part} (hm : m.column = 0) (hk : Closes is k opening [])
    (h : ∀ m a is k opening, Closes is k opening [] → EmitsParts ps (between m (Part.following ps) is a) is k opening) :
    EmitsParts (p :: ps) (between m (p.text ++ Part.following ps) is true) is k opening := by
  cases p with
  | filler t ht =>
    obtain ⟨m₁,hm₁⟩ := nextFrom_filler ht (Part.atLineEnd_following ps) true m
    obtain ⟨m',a',hps⟩ := h m₁ true is k opening hk
    exact ⟨m',a',hps.of_toNext (toNext_between_congr hm₁ is)⟩
  | entry e =>
    obtain ⟨m₁,he⟩ := emits_body e hm hk (ends_following ps)
    obtain ⟨m',a',hps⟩ := h m₁ false [2,0] 1 [] (.inr ⟨rfl,rfl⟩)
    have hopen : (if Part.entries ps = [] then [2,0] else [2,0]) = [2,0] := ite_self _
    rw [partTokens_eq,hopen] at hps
    exact ⟨m',a',he.trans hps⟩

/-- Parts behind the end of a line. -/
lemma emits_following (ps : List Part) (m : Mark) (a : Bool) (is : List Nat) (k : Nat) (opening : List Token)
    (hk : Closes is k opening []) : EmitsParts ps (between m (Part.following ps) is a) is k opening := by
  induction ps generalizing m a is k opening with
  | nil => exact ⟨m,a,.space rfl⟩
  | cons p ps ih =>
    obtain ⟨m',a',hp⟩ := emits_part (m := m.nextLine) p rfl hk ih
    have hbreak := nextFrom_break false a m (p.text ++ Part.following ps)
    rw [Bool.not_false,Bool.or_true] at hbreak
    rw [Part.following_cons]
    exact ⟨m',a',hp.of_toNext (toNext_between_congr hbreak is)⟩

end Scan

/-- The tokens of a list of records with lines without content among them. -/
theorem tokens_parts (p : Part) (ps : List Part) : tokens ⟨p.text ++ Part.following ps,[]⟩ =
    if Part.entries (p :: ps) = [] then ([.streamEnd],true)
    else (.blockSequenceStart :: (Part.entries (p :: ps)).flatMap (fun e => e.tokens ++ [.blockEnd]) ++
      [.blockEnd,.streamEnd],true) := by
  have hcloses : Scan.Closes [] 0 [.blockSequenceStart] [] := Or.inl ⟨rfl,rfl,rfl⟩
  obtain ⟨m',a',h⟩ := Scan.emits_part (m := .start) p rfl hcloses (Scan.emits_following ps)
  have hcount := Part.count_le (p :: ps)
  rw [Part.following_cons] at hcount
  simp only [List.length_cons] at hcount
  generalize p.text ++ Part.following ps = t at *
  generalize Part.entries (p :: ps) = es at *
  obtain ⟨n,hn⟩ := Nat.exists_eq_add_of_le (show (es.map Entry.count).sum ≤ t.length by omega)
  have hrun := Scan.run_of_emits h (n+1)
  rw [Scan.run_end (Nat.succ_pos n)] at hrun
  have hstart : Scan.start ⟨t,[]⟩ = Scan.between .start t [] true := rfl
  rw [tokens,hn,Nat.add_assoc,hstart,hrun]
  cases es with
  | nil => rfl
  | cons e es =>
    have hreplicate : List.replicate [2,0].length Token.blockEnd ++ [.streamEnd] = [.blockEnd,.blockEnd,.streamEnd] :=
      rfl
    simp only [List.cons_ne_nil,if_false,hreplicate,Scan.partTokens,List.replicate_zero,List.nil_append,
      List.append_assoc,List.cons_append,List.flatMap_cons,Entry.flatMap_blockEnd]

/-- The tokens of a list of entries. -/
theorem tokens_entries {es : List Entry} (hne : es ≠ []) : tokens ⟨es.flatMap Entry.text,[]⟩ =
    (.blockSequenceStart :: es.flatMap (fun e => e.tokens ++ [.blockEnd]) ++ [.blockEnd,.streamEnd],true) := by
  obtain ⟨e,es,rfl⟩ := List.exists_cons_of_ne_nil hne
  let last : Part := .filler [] (.inl ⟨0,rfl⟩)
  have hentries : Part.entries (.entry e :: (es.map .entry ++ [last])) = e :: es := by
    simp [Part.entries,Part.content?,last,List.filterMap_append,List.filterMap_map,Function.comp_def]
  have htext : (Part.entry e).text ++ Part.following (es.map .entry ++ [last]) = (e :: es).flatMap Entry.text := by
    have hlines := Part.following_lines ((e :: es).map .entry) last
    rw [List.map_cons,List.cons_append,Part.following_cons,List.cons.injEq,← List.map_cons,List.flatMap_map] at hlines
    have hentry : Entry.text = fun e => (Part.entry e).text ++ ['\n'] := funext Entry.text_eq
    rw [hlines.2,hentry]
    exact List.append_nil _
  have h := tokens_parts (.entry e) (es.map .entry ++ [last])
  rwa [htext,hentries,if_neg (List.cons_ne_nil e es)] at h

end Keyring.Yaml
