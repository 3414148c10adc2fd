import Keyring.Yaml.Tokens
import Mathlib

/-! Runs of the scanner. Between two tokens, only the place of the next token counts, and not how much space lies
before it. What stands at the end of a text decides whether an entry in the first column, put on a line behind the text,
is one of its list. -/
namespace Keyring.Yaml

namespace Scan

/-- A scan of a text known to its end, outside of brackets, with nothing held back. -/
def between (m : Mark) (rest : List Char) (indents : List Nat) (allowed : Bool) : Scan :=
  { cursor := ⟨m,rest⟩, margin := [], indents := indents, level := 0, keyAllowed := allowed,
    held := [], ended := false }

/-- The tokens that a scan releases behind one more token. -/
def release (s : Scan) : Option (List Token × Scan) := do
  let s ← s.expire
  let (ts,held) := Held.released s.held
  some (ts,{ s with held := held })

/-- The second scan differs from the first one in nothing but what it holds back. -/
def Reheld (s s' : Scan) : Prop := ∃ held, s' = { s with held := held }

section Reheld

variable {s s' : Scan}

lemma Reheld.cursor (h : s.Reheld s') : s'.cursor = s.cursor := by
  obtain ⟨held,rfl⟩ := h
  rfl

lemma Reheld.margin (h : s.Reheld s') : s'.margin = s.margin := by
  obtain ⟨held,rfl⟩ := h
  rfl

lemma Reheld.level (h : s.Reheld s') : s'.level = s.level := by
  obtain ⟨held,rfl⟩ := h
  rfl

lemma reheld_of_giveUp {p : Held → Bool}
    (h : ((Held.giveUp p s.held).bind fun held => some { s with held := held }) = some s') : s.Reheld s' := by
  obtain ⟨held,-,h⟩ := Option.bind_eq_some_iff.mp h
  exact ⟨held,(Option.some.inj h).symm⟩

lemma reheld_of_expire (h : s.expire = some s') : s.Reheld s' := reheld_of_giveUp h

lemma reheld_of_dropPlace (h : s.dropPlace = some s') : s.Reheld s' := reheld_of_giveUp h

lemma reheld_of_savePlace (h : s.savePlace = some s') : s.Reheld s' := by
  unfold savePlace at h
  split at h
  · obtain ⟨s₁,h₁,h⟩ := Option.bind_eq_some_iff.mp h
    obtain ⟨held,rfl⟩ := reheld_of_dropPlace h₁
    exact ⟨_,(Option.some.inj h).symm⟩
  · exact ⟨s.held,(Option.some.inj h).symm⟩

end Reheld

lemma step_eq (s : Scan) : s.step = s.next.bind release := rfl

/-- Where the space before the next token ends, a second search for it ends at once. -/
lemma nextFrom_nextFrom (flow : Bool) {comment allowed a : Bool} {m : Mark} {r : List Char} {p : Cursor}
    (h : nextFrom flow comment allowed m r = (a,p)) : nextFrom flow false a p.mark p.rest = (a,p) := by
  induction r generalizing comment allowed m with
  | nil =>
    cases h
    rfl
  | cons c r ih =>
    rw [nextFrom] at h
    split_ifs at h with h₁ h₂ h₃ h₄
    · exact ih h
    · exact ih h
    · exact ih h
    · exact ih h
    · cases h
      rw [nextFrom,if_neg h₁,if_neg Bool.false_ne_true,if_neg h₃,if_neg h₄]

lemma toNext_of_nextFrom {s : Scan} {a : Bool} {p : Cursor}
    (h : nextFrom s.inFlow false s.keyAllowed s.cursor.mark s.cursor.rest = (a,p)) :
    s.toNext = { s with cursor := p, keyAllowed := a } := by
  simp only [toNext,h]

lemma toNext_between {m m' : Mark} {rest rest' : List Char} {is : List Nat} {a a' : Bool}
    (h : nextFrom false false a m rest = (a',⟨m',rest'⟩)) :
    (between m rest is a).toNext = between m' rest' is a' :=
  toNext_of_nextFrom h

lemma toNext_between_congr {m m' : Mark} {rest rest' : List Char} {a a' : Bool}
    (h : nextFrom false false a m rest = nextFrom false false a' m' rest') (is : List Nat) :
    (between m rest is a).toNext = (between m' rest' is a').toNext := by
  rw [toNext_between rfl,h,toNext_between rfl]

lemma step_congr {s t : Scan} (h : s.toNext = t.toNext) : s.step = t.step := by
  simp only [step,next,h]

lemma run_congr {s t : Scan} (h : s.toNext = t.toNext) (n : Nat) : s.run n = t.run n := by
  cases n with
  | zero => rfl
  | succ n => simp only [run,step_congr h]

/-- From the first scan to the second one, up to space, as many tokens are read as the number tells, and the tokens
of the list are released. -/
inductive Emits : Nat → Scan → List Token → Scan → Prop
  | space {s t : Scan} : s.toNext = t.toNext → Emits 0 s [] t
  | step {n : Nat} {s t u : Scan} {ts us : List Token} : s.step = some (ts,t) → t.ended = false →
      Emits n t us u → Emits (n+1) s (ts ++ us) u

lemma Emits.of_toNext {n : Nat} {s t u : Scan} {ts : List Token} (h : s.toNext = t.toNext)
    (ht : Emits n t ts u) : Emits n s ts u := by
  cases ht with
  | space hu => exact .space (h.trans hu)
  | step hs he hu => exact .step ((step_congr h).trans hs) he hu

lemma Emits.trans {n k : Nat} {s t u : Scan} {ts us : List Token} (h : Emits n s ts t)
    (hu : Emits k t us u) : Emits (n+k) s (ts ++ us) u := by
  induction h with
  | space h => simpa using hu.of_toNext h
  | step hs he _ ih =>
    rw [List.append_assoc,Nat.add_right_comm]
    exact .step hs he (ih hu)

lemma Emits.single {s t u : Scan} {ts : List Token} (h : s.step = some (ts,t)) (he : t.ended = false)
    (hu : t.toNext = u.toNext) : Emits 1 s ts u := by
  simpa using Emits.step h he (.space hu)

/-- The tokens of a run begin with those released on the way. -/
lemma run_of_emits {n : Nat} {s t : Scan} {ts : List Token} (h : Emits n s ts t) (k : Nat) :
    s.run (n+k) = (ts ++ (t.run k).1,(t.run k).2) := by
  induction h with
  | space h => rw [Nat.zero_add,run_congr h,List.nil_append]
  | step hs he _ ih =>
    rw [Nat.add_right_comm,run]
    simp only [hs,he,Bool.false_eq_true,if_false,ih,List.append_assoc]

/-- The next token, where no place is given up before it. -/
lemma next_of_rest {s t u : Scan} {c : Char} {r : List Char} (h : s.toNext = t) (hexpire : t.expire = some t)
    (hunroll : t.unroll (t.column+1) = u) (hmargin : u.margin = []) (hrest : u.cursor.rest = c :: r) :
    s.next = u.token c r := by
  simp [next,h,hexpire,hunroll,hmargin,hrest]

lemma next_of_end {s t u : Scan} (h : s.toNext = t) (hexpire : t.expire = some t)
    (hunroll : t.unroll (t.column+1) = u) (hmargin : u.margin = []) (hrest : u.cursor.rest = []) :
    s.next = u.streamEnd := by
  simp [next,h,hexpire,hunroll,hmargin,hrest]

/-- The blocks that are closed are the innermost ones, as far as they lie behind the limit. -/
lemma closeFrom_eq (limit : Nat) (is : List Nat) : closeFrom limit is =
    (is.dropWhile (limit ≤ ·),List.replicate (is.takeWhile (limit ≤ ·)).length (.token .blockEnd)) := by
  induction is with
  | nil => rfl
  | cons i is ih =>
    by_cases h : limit ≤ i
    · simp [closeFrom,h,ih,List.replicate_succ]
    · simp [closeFrom,h]

lemma closeFrom_zero (is : List Nat) :
    closeFrom 0 is = ([],List.replicate is.length (.token .blockEnd)) := by
  induction is with
  | nil => rfl
  | cons i is ih => simp [closeFrom,ih,List.replicate_succ]

lemma released_tokens (ts : List Token) : Held.released (ts.map Held.token) = (ts,[]) := by
  induction ts with
  | nil => rfl
  | cons t ts ih => simp [Held.released,ih]

lemma giveUp_tokens {p : Held → Bool} (hp : ∀ t, p (.token t) = false) (ts : List Token) :
    Held.giveUp p (ts.map .token) = some (ts.map .token) := by
  simp [Held.giveUp,hp]

/-- Tokens that no place stands before are released at once. -/
lemma release_of_tokens {s : Scan} {ts : List Token} (h : s.held = ts.map .token) :
    s.release = some (ts,{ s with held := [] }) := by
  have hfresh := giveUp_tokens (p := fun h => h.isStale s.cursor.mark) (fun _ => rfl) ts
  simp [release,expire,h,hfresh,released_tokens]

lemma dropPlace_of_tokens {s : Scan} {ts : List Token} (h : s.held = ts.map .token) : s.dropPlace = some s := by
  have hnone := giveUp_tokens (p := fun h => h.isAt s.level) (fun _ => rfl) ts
  rw [← h] at hnone
  rw [dropPlace,hnone]
  rfl

/-- A scan as `between`, with tokens to be released at once. -/
def releasing (m : Mark) (rest : List Char) (is : List Nat) (a : Bool) (ts : List Token) : Scan :=
  { between m rest is a with held := ts.map .token }

lemma unroll_releasing {limit k : Nat} {is base : List Nat}
    (h : closeFrom limit is = (base,List.replicate k (.token .blockEnd))) (m : Mark) (rest : List Char) (a : Bool)
    (ts : List Token) :
    (releasing m rest is a ts).unroll limit = releasing m rest base a (ts ++ List.replicate k .blockEnd) := by
  simp [unroll,releasing,between,inFlow,h]

/-- At the end of the text, all open blocks are closed. -/
lemma streamEnd_releasing (m : Mark) (is : List Nat) (a : Bool) (ts : List Token) : ∃ m',
    (releasing m [] is a ts).streamEnd = some { releasing m' [] [] false
      (ts ++ List.replicate is.length .blockEnd ++ [.streamEnd]) with ended := true } := by
  refine ⟨if m.column = 0 then m else m.nextLine,?_⟩
  generalize hm' : (if m.column = 0 then m else m.nextLine) = m'
  have hcursor : { releasing m [] is a ts with cursor := ⟨m',[]⟩ } = releasing m' [] is a ts := rfl
  have hdrop : (releasing m' [] [] a (ts ++ List.replicate is.length .blockEnd)).dropPlace =
      some (releasing m' [] [] a (ts ++ List.replicate is.length .blockEnd)) := dropPlace_of_tokens rfl
  have hmark : (releasing m [] is a ts).cursor.mark = m := rfl
  simp only [streamEnd,hmark,hm',hcursor,unroll_releasing (closeFrom_zero is),hdrop]
  simp [releasing,between,allow,push]

lemma run_end {n : Nat} (hn : 0 < n) (m : Mark) (is : List Nat) (a : Bool) :
    (between m [] is a).run n = (List.replicate is.length .blockEnd ++ [.streamEnd],true) := by
  have hclose := closeFrom_eq (m.column+1) is
  have hlength : (is.takeWhile (m.column+1 ≤ ·)).length + (is.dropWhile (m.column+1 ≤ ·)).length = is.length := by
    rw [← List.length_append,List.takeWhile_append_dropWhile]
  generalize is.takeWhile (m.column+1 ≤ ·) = closed at *
  generalize is.dropWhile (m.column+1 ≤ ·) = base at *
  obtain ⟨m',hend⟩ := streamEnd_releasing m base a (List.replicate closed.length .blockEnd)
  have hnext : (between m [] is a).next =
      (releasing m [] base a (List.replicate closed.length .blockEnd)).streamEnd := by
    have htoNext : (between m [] is a).toNext = releasing m [] is a [] := toNext_between rfl
    exact next_of_end htoNext rfl (unroll_releasing hclose m [] a []) rfl rfl
  obtain ⟨n,rfl⟩ := Nat.exists_eq_succ_of_ne_zero (by omega : n ≠ 0)
  rw [run,step_eq,hnext,hend,Option.bind_some,release_of_tokens rfl]
  simp [← hlength]

/-- The scan before its last step, at the end of the stream, if it comes there. -/
def atEnd? : (fuel : Nat) → Scan → Option Scan
  | 0,_ => none
  | n+1,s => match s.step with
    | none => none
    | some (_,s') => if s'.ended then some s else atEnd? n s'

end Scan

/-- The tokens before a document's node, and those for its anchor and tag. -/
def isPrelude : Token → Bool
  | .version _ _ | .tagDirective _ _ | .documentStart | .anchor _ | .tag _ _ | .streamEnd => true
  | _ => false

/-- Whether the text leaves its list open: its document is not ended by a mark and, unless nothing of the document's
node is given but its anchor and tag, a block in the first column is open at the end of the text. -/
def Source.isOpen (s : Source) : Bool :=
  match (Scan.start s).atEnd? (s.chars.length+1) with
  | some e => (tokens s).1.all (· ≠ .documentEnd) && (e.indents.getLast? == some 0 || (tokens s).1.all isPrelude)
  | none => false

end Keyring.Yaml
