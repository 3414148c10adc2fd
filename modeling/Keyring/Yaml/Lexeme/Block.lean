import Keyring.Yaml.Lexeme.Gap

/-! Scalars that stand as a block of indented lines. -/
namespace Keyring.Yaml.Block

/-- What becomes of the line breaks at the end. -/
inductive Chomping where
  | strip
  | clip
  | keep
  deriving DecidableEq

structure Header where
  chomping : Chomping
  /-- The indentation over that of the surrounding block, if it is given. -/
  indent : Option Nat

def chomping? (c : Char) : Option Chomping :=
  if c = '+' then some .keep else if c = '-' then some .strip else none

/-- An indentation is given by one digit, which is not zero. -/
def indent? (c : Char) : Option (Option Nat) :=
  if c.isDigit then some (if c = '0' then none else some (c.toNat - 48)) else none

/-- The two parts of a header, in either order. -/
def header : List Char → Option (Header × List Char)
  | [] => some (⟨.clip,none⟩,[])
  | c :: r => match chomping? c with
    | some ch => match r with
      | d :: r' => match indent? d with
        | some n => n.map fun n => (⟨ch,some n⟩,r')
        | none => some (⟨ch,none⟩,r)
      | [] => some (⟨ch,none⟩,[])
    | none => match indent? c with
      | some n => n.map fun n => match r with
        | d :: r' => match chomping? d with
          | some ch => (⟨ch,some n⟩,r')
          | none => (⟨.clip,some n⟩,r)
        | [] => (⟨.clip,some n⟩,[])
      | none => some (⟨.clip,none⟩,c :: r)

/-- The rest of a header's line: blanks and a comment. -/
def afterHeader (rest : List Char) : Option (List Char) :=
  let r := rest.dropWhile isBlank
  let r := match r with
    | '#' :: _ => r.dropWhile (!isBreak ·)
    | _ => r
  match r with
  | [] => some []
  | c :: r => if isBreak c then some r else none

/-- Skips the indentation of the next line that is not empty. Yields the breaks passed over, the
greatest column reached and the place. While the indentation `indent` is unknown, every space counts
to it. -/
def skipBreaks (indent : Option Nat) (widest : Nat) (m : Mark) : List Char → Option (List Char × Nat × Cursor)
  | [] => some ([],max widest m.column,⟨m,[]⟩)
  | c :: r =>
    let short := indent.all (m.column < ·)
    if short ∧ c = ' ' then skipBreaks indent widest (m.right 1) r
    else if short ∧ c = '\t' then none
    else if isBreak c then before [c] (skipBreaks indent (max widest m.column) m.nextLine r)
    else some ([],max widest m.column,⟨m,c :: r⟩)

/-- The lines from the cursor on, and the breaks at their end: that after the last line, and those of the
empty lines behind it. `first` and `more` are the breaks before, `blank` tells whether the line before
them began with a blank. -/
def lines (folded : Bool) (indent : Nat) : (fuel : Nat) → (first : Option Char) → (more : List Char) →
    (blank : Bool) → Cursor → Option (List Char × Option Char × List Char × Cursor)
  | 0,first,more,_,p => some ([],first,more,p)
  | n+1,first,more,blank,p =>
    match p.rest with
    | [] => some ([],first,more,p)
    | c :: _ =>
      if p.mark.column ≠ indent then some ([],first,more,p)
      else do
        let fold := folded && first == some '\n' && !blank && !isBlank c
        let lead := if fold then (if more = [] then [' '] else []) else first.toList
        let line := p.rest.takeWhile (!isBreak ·)
        let rest := p.rest.drop line.length
        let mark := line.foldl Mark.after p.mark
        let (breaks,_,q) ← skipBreaks (some indent) 0 (if rest = [] then mark else mark.nextLine) rest.tail
        before (lead ++ more ++ line) (lines folded indent n rest.head? breaks (isBlank c) q)

/-- A block scalar whose indicator is the next character, inside a block indented by `base`, if by
any. -/
def scalar (folded : Bool) (base : Option Nat) (start : Cursor) : Option (List Char × Cursor) := do
  let (header,r) ← header start.rest.tail
  let r ← afterHeader r
  let given := header.indent.map (base.getD 0 + ·)
  let (more,widest,p) ← skipBreaks given 0 start.mark.nextLine r
  let least := match base with
    | some n => n+1
    | none => 1
  let indent := given.getD (max widest (max least 1))
  let (text,first,more,e) ← lines folded indent (p.rest.length+1) none more false p
  let tail := match header.chomping with
    | .strip => []
    | .clip => first.toList
    | .keep => first.toList ++ more
  some (text ++ tail,e)

end Keyring.Yaml.Block
