import Keyring.Yaml.Cursor

/-! The space between two words of a scalar, and how lines are folded. -/
namespace Keyring.Yaml

inductive Gap where
  | blanks (chars : List Char)
  /-- A line break and the breaks after it; the first one may have been escaped. -/
  | breaks (first : Option Char) (more : List Char)
  deriving DecidableEq

namespace Gap

def none : Gap := blanks []

/-- A single break becomes a space; of several, the first one vanishes. A Unicode separator is kept in
either case. -/
def text : Gap → List Char
  | blanks cs => cs
  | breaks (some '\n') [] => [' ']
  | breaks (some '\n') more => more
  | breaks first more => first.toList ++ more

/-- Takes in a blank or a break. Blanks count on the first line only. -/
def push : Gap → Char → Gap
  | blanks cs,c => if isBreak c then breaks (some c) [] else blanks (cs ++ [c])
  | breaks first more,c => if isBreak c then breaks first (more ++ [c]) else breaks first more

/-- How many characters are looked at behind it: more at the begin of a word than inside. -/
def ahead (g : Gap) : Nat := if g = none then 2 else 4

def isBroken : Gap → Bool
  | blanks _ => false
  | breaks _ _ => true

end Gap

/-- Text put before the rest of a scalar, if the rest can be read. -/
def before {α : Type} (text : List Char) (rest : Option (List Char × α)) : Option (List Char × α) :=
  rest.map fun p => (text ++ p.1,p.2)

end Keyring.Yaml
