/-! The tokens of YAML, the places in a text that they are read from, and the classes of characters that the rules
speak of. -/
namespace Keyring.Yaml

def isBreak (c : Char) : Bool := c == '\n' || c == '\u2028' || c == '\u2029'

def isBlank (c : Char) : Bool := c == ' ' || c == '\t'

def isSpace (c : Char) : Bool := isBlank c || isBreak c

/-- Whether the text is at its end, or at a blank or a line break. -/
def atSpace : List Char → Bool
  | [] => true
  | c :: _ => isSpace c

/-- The characters of names: letters and digits in ASCII, the hyphen and the low line. -/
def isWord (c : Char) : Bool := c.isAlphanum || c == '-' || c == '_'

/-- Whether a line begins with `---` or `...`, standing alone. -/
def isDocumentMark : List Char → Bool
  | '-' :: '-' :: '-' :: r => atSpace r
  | '.' :: '.' :: '.' :: r => atSpace r
  | _ => false

/-- A line, and how many characters and bytes of it lie before, all from zero. -/
structure Mark where
  line : Nat
  column : Nat
  bytes : Nat
  deriving DecidableEq

namespace Mark

def start : Mark := ⟨0,0,0⟩

/-- The mark behind `n` characters of ASCII on the line. -/
def right (m : Mark) (n : Nat) : Mark := ⟨m.line,m.column+n,m.bytes+n⟩

def nextLine (m : Mark) : Mark := ⟨m.line+1,0,0⟩

/-- The mark behind a character. -/
def after (m : Mark) (c : Char) : Mark :=
  if isBreak c then m.nextLine else ⟨m.line,m.column+1,m.bytes+c.utf8Size⟩

end Mark

/-- The characters not read yet, and the mark of the first of them. -/
structure Cursor where
  mark : Mark
  rest : List Char

/-- How far one may look ahead: the entry at `n` tells how many characters must be left where `n` are
looked at. Of a text that is known to its end none need be. -/
abbrev Margin := List Nat

/-- Whether fewer characters are left than are looked at. -/
def Margin.lacks (margin : Margin) (n : Nat) (rest : List Char) : Bool :=
  let needed := margin.getD n 0
  decide ((rest.take needed).length < needed)

@[simp] theorem Margin.lacks_nil (n : Nat) (rest : List Char) :
    Margin.lacks [] n rest = false := by
  simp [Margin.lacks]

inductive Token where
  | streamEnd
  | version (major minor : Nat)
  | tagDirective (handle lead : List Char)
  | documentStart
  | documentEnd
  | blockSequenceStart
  | blockMappingStart
  | blockEnd
  | flowSequenceStart
  | flowSequenceEnd
  | flowMappingStart
  | flowMappingEnd
  | blockEntry
  | flowEntry
  | key
  | value
  | alias (name : List Char)
  | anchor (name : List Char)
  | tag (handle suffix : List Char)
  /-- A scalar is plain if it has neither quotes nor the form of a block. -/
  | scalar (text : List Char) (plain : Bool)
  deriving DecidableEq

end Keyring.Yaml
