import Keyring.Yaml.Source
import Keyring.Yaml.Lexeme.Block
import Keyring.Yaml.Lexeme.Line
import Keyring.Yaml.Lexeme.Plain
import Keyring.Yaml.Lexeme.Quoted

/-! The tokens of a text. A token that may turn out to begin a mapping's key is held back until a colon
follows or can follow no more: a key without an indicator lies on one line and is at most 1024 bytes long.
If the text breaks a rule, only the tokens released before count. -/
namespace Keyring.Yaml

/-- A token held back, or the mark of a place where a key may have begun inside `level` brackets. If
it is required, the text is wrong unless a key begins there. -/
inductive Held where
  | place (level : Nat) (mark : Mark) (required : Bool)
  | token (t : Token)
  deriving DecidableEq

namespace Held

/-- Whether this is a place too far back for a key that ends here. -/
def isStale (m : Mark) : Held → Bool
  | place _ p _ => p.line < m.line || p.bytes + 1024 < m.bytes
  | token _ => false

def isAt (level : Nat) : Held → Bool
  | place l _ _ => l == level
  | token _ => false

def isRequired : Held → Bool
  | place _ _ required => required
  | token _ => false

/-- Gives up places, unless a key is required at one of them. -/
def giveUp (p : Held → Bool) (held : List Held) : Option (List Held) :=
  if held.any fun h => p h && h.isRequired then none else some (held.filter fun h => !p h)

/-- The column of the place of a level. -/
def columnAt? (level : Nat) : List Held → Option Nat
  | [] => none
  | place l m _ :: r => if l = level then some m.column else columnAt? level r
  | token _ :: r => columnAt? level r

/-- Puts tokens at the place of a level. -/
def fill (level : Nat) (ts : List Token) (held : List Held) : List Held :=
  held.flatMap fun h => if h.isAt level then ts.map token else [h]

/-- The tokens before the first place. -/
def released : List Held → List Token × List Held
  | token t :: r =>
    let (ts,held) := released r
    (t :: ts,held)
  | held => ([],held)

end Held

structure Scan where
  cursor : Cursor
  margin : Margin
  /-- The columns of the open blocks, innermost first. -/
  indents : List Nat
  /-- How many brackets are open. -/
  level : Nat
  /-- Whether a key may begin here. -/
  keyAllowed : Bool
  held : List Held
  ended : Bool

namespace Scan

def start (s : Source) : Scan :=
  { cursor := ⟨.start,s.chars⟩, margin := s.margin, indents := [], level := 0, keyAllowed := true,
    held := [], ended := false }

def inFlow (s : Scan) : Bool := 0 < s.level

def column (s : Scan) : Nat := s.cursor.mark.column

def push (s : Scan) (t : Token) : Scan := { s with held := s.held ++ [.token t] }

/-- Goes on behind `n` characters of the line. -/
def skip (s : Scan) (n : Nat) : Scan :=
  { s with cursor := ⟨s.cursor.mark.right n,s.cursor.rest.drop n⟩ }

/-- Skips blanks, comments and line breaks. Outside of brackets a key may begin after a break; a tab is
no blank where a key may begin. -/
def nextFrom (flow : Bool) : (comment allowed : Bool) → Mark → List Char → Bool × Cursor
  | _,allowed,m,[] => (allowed,⟨m,[]⟩)
  | comment,allowed,m,c :: r =>
    if isBreak c then nextFrom flow false (allowed || !flow) m.nextLine r
    else if comment then nextFrom flow true allowed (m.after c) r
    else if c = ' ' ∨ c = '\t' ∧ (flow ∨ !allowed) ∨ c = '\ufeff' ∧ m.column = 0 then
      nextFrom flow false allowed (m.after c) r
    else if c = '#' then nextFrom flow true allowed (m.right 1) r
    else (allowed,⟨m,c :: r⟩)

def toNext (s : Scan) : Scan :=
  let (allowed,cursor) := nextFrom s.inFlow false s.keyAllowed s.cursor.mark s.cursor.rest
  { s with cursor := cursor, keyAllowed := allowed }

/-- Gives up the places that are too far back. -/
def expire (s : Scan) : Option Scan := do
  let held ← Held.giveUp (·.isStale s.cursor.mark) s.held
  some { s with held := held }

/-- Gives up the place of the current level. -/
def dropPlace (s : Scan) : Option Scan := do
  let held ← Held.giveUp (·.isAt s.level) s.held
  some { s with held := held }

/-- Marks the current place, if a key may begin here. -/
def savePlace (s : Scan) : Option Scan :=
  if s.keyAllowed then do
    let required := !s.inFlow && s.indents.head? == some s.column
    let s ← s.dropPlace
    some { s with held := s.held ++ [.place s.level s.cursor.mark required] }
  else some s

/-- Closes the open blocks at columns from `limit` on. -/
def closeFrom (limit : Nat) : List Nat → List Nat × List Held
  | [] => ([],[])
  | i :: is =>
    if limit ≤ i then
      let (rest,ends) := closeFrom limit is
      (rest,.token .blockEnd :: ends)
    else (i :: is,[])

def unroll (s : Scan) (limit : Nat) : Scan :=
  if s.inFlow then s
  else
    let (indents,ends) := closeFrom limit s.indents
    { s with indents := indents, held := s.held ++ ends }

/-- Whether a block at this column lies inside the open ones. -/
def opensBlock (s : Scan) (column : Nat) : Bool :=
  !s.inFlow && s.indents.head?.all (· < column)

/-- Opens a block at the current column, if none is open there. -/
def roll (s : Scan) (t : Token) : Scan :=
  if s.opensBlock s.column then { s with indents := s.column :: s.indents }.push t else s

/-- The marker between entries stands where a key may begin, outside of brackets. -/
def rollAllowed (s : Scan) (t : Token) : Option Scan :=
  if s.inFlow then some s
  else if s.keyAllowed then some (s.roll t)
  else none

def allow (s : Scan) (allowed : Bool) : Scan := { s with keyAllowed := allowed }

def streamEnd (s : Scan) : Option Scan := do
  let m := s.cursor.mark
  let s := { s with cursor := ⟨if m.column = 0 then m else m.nextLine,[]⟩ }
  let s ← (s.unroll 0).dropPlace
  some { (s.allow false).push .streamEnd with ended := true }

def directive (s : Scan) : Option Scan := do
  let s ← (s.unroll 0).dropPlace
  let (token,r) ← Line.directive s.cursor.rest.tail
  if s.margin.lacks 2 r then none
  else some { (s.allow false).push token with cursor := ⟨s.cursor.mark.nextLine,r.tail⟩ }

def documentMark (s : Scan) (t : Token) : Option Scan := do
  let s ← (s.unroll 0).dropPlace
  some (((s.allow false).skip 3).push t)

def flowStart (s : Scan) (t : Token) : Option Scan := do
  let s ← s.savePlace
  some (({ s with level := s.level+1 }.allow true).skip 1 |>.push t)

def flowEnd (s : Scan) (t : Token) : Option Scan := do
  let s ← s.dropPlace
  some (({ s with level := s.level-1 }.allow false).skip 1 |>.push t)

def flowEntry (s : Scan) : Option Scan := do
  let s ← s.dropPlace
  some ((s.allow true).skip 1 |>.push .flowEntry)

def blockEntry (s : Scan) : Option Scan := do
  let s ← s.rollAllowed .blockSequenceStart
  let s ← s.dropPlace
  some ((s.allow true).skip 1 |>.push .blockEntry)

def key (s : Scan) : Option Scan := do
  let s ← s.rollAllowed .blockMappingStart
  let s ← s.dropPlace
  some ((s.allow !s.inFlow).skip 1 |>.push .key)

/-- A colon makes a key of what began at the place of the current level. Without such a place it stands
for itself. -/
def value (s : Scan) : Option Scan :=
  match Held.columnAt? s.level s.held with
  | some column =>
    let opens := s.opensBlock column
    let starts := if opens then [.blockMappingStart,.key] else [Token.key]
    let s := { s with held := Held.fill s.level starts s.held,
                      indents := if opens then column :: s.indents else s.indents }
    some ((s.allow false).skip 1 |>.push .value)
  | none => do
    let s ← s.rollAllowed .blockMappingStart
    some ((s.allow !s.inFlow).skip 1 |>.push .value)

/-- A token within the line that may begin a key. -/
def word (s : Scan) (read : List Char → Option (Token × List Char)) : Option Scan := do
  let s ← s.savePlace
  let (token,r) ← read s.cursor.rest
  if s.margin.lacks 1 r then none
  else some ((s.allow false).skip (s.cursor.rest.length - r.length) |>.push token)

def named (make : List Char → Token) (rest : List Char) : Option (Token × List Char) := do
  let (name,r) ← Line.name rest.tail
  some (make name,r)

def blockScalar (s : Scan) (folded : Bool) : Option Scan := do
  let s ← s.dropPlace
  let (text,cursor) ← Block.scalar folded s.indents.head? s.cursor
  if s.margin.lacks 1 cursor.rest then none
  else some { (s.allow true).push (.scalar text false) with cursor := cursor }

def quotedScalar (s : Scan) (read : Margin → Cursor → Option (List Char × Cursor)) : Option Scan := do
  let s ← s.savePlace
  let (text,cursor) ← read s.margin s.cursor
  some { (s.allow false).push (.scalar text false) with cursor := cursor }

def plainScalar (s : Scan) : Option Scan := do
  let s ← s.savePlace
  let indent := match s.indents with
    | [] => 0
    | i :: _ => i+1
  let (text,broken,cursor) ← plain s.margin s.inFlow indent s.cursor
  some { (s.allow broken).push (.scalar text true) with cursor := cursor }

/-- Reads one token that begins with the character `c`. -/
def token (s : Scan) (c : Char) (r : List Char) : Option Scan :=
  if s.column = 0 ∧ c = '%' then s.directive
  else if s.column = 0 ∧ isDocumentMark (c :: r) then
    s.documentMark (if c = '-' then .documentStart else .documentEnd)
  else if c = '[' then s.flowStart .flowSequenceStart
  else if c = '{' then s.flowStart .flowMappingStart
  else if c = ']' then s.flowEnd .flowSequenceEnd
  else if c = '}' then s.flowEnd .flowMappingEnd
  else if c = ',' then s.flowEntry
  else if c = '-' ∧ atSpace r then s.blockEntry
  else if c = '?' ∧ (s.inFlow ∨ atSpace r) then s.key
  else if c = ':' ∧ (s.inFlow ∨ atSpace r) then s.value
  else if c = '*' then s.word (named .alias)
  else if c = '&' then s.word (named .anchor)
  else if c = '!' then s.word (Line.tag s.inFlow)
  else if c = '|' ∧ !s.inFlow then s.blockScalar false
  else if c = '>' ∧ !s.inFlow then s.blockScalar true
  else if c = '\'' then s.quotedScalar singleQuoted
  else if c = '"' then s.quotedScalar doubleQuoted
  else if startsPlain s.inFlow (c :: r) then s.plainScalar
  else none

/-- Reads the next token, and closes the blocks that end before it. Four characters are looked at, the
longest marker and the space behind it. -/
def next (s : Scan) : Option Scan := do
  let s ← s.toNext.expire
  let s := s.unroll (s.column+1)
  if s.margin.lacks 4 s.cursor.rest then none
  else match s.cursor.rest with
    | [] => s.streamEnd
    | c :: r => s.token c r

/-- One token more, and the tokens this releases. -/
def step (s : Scan) : Option (List Token × Scan) := do
  let s ← s.next
  let s ← s.expire
  let (ts,held) := Held.released s.held
  some (ts,{ s with held := held })

/-- The released tokens, and whether they go to the end of the stream. -/
def run : (fuel : Nat) → Scan → List Token × Bool
  | 0,_ => ([],false)
  | n+1,s => match s.step with
    | none => ([],false)
    | some (ts,s) =>
      if s.ended then (ts,true)
      else
        let (rest,whole) := run n s
        (ts ++ rest,whole)

end Scan

/-- The tokens of a text, and whether they are all of them. Each one but the last takes a character. -/
def tokens (s : Source) : List Token × Bool := (Scan.start s).run (s.chars.length+1)

end Keyring.Yaml
