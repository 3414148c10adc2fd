import Keyring.Json.Number
import Keyring.Json.Text

/-! Values in JSON that are passed over. -/
namespace Keyring.Json

def isBlank (c : Char) : Bool := c == ' ' || c == '\n' || c == '\t' || c == '\r'

def skipBlanks (rest : List Char) : List Char := rest.dropWhile isBlank

/-- The characters behind a word. -/
def skipWord (word rest : List Char) : Option (List Char) :=
  if word.isPrefixOf rest then some (rest.drop word.length) else none

/-- The words that stand for values, by their first letter. -/
def word? (c : Char) : Option (List Char) :=
  if c = 'n' then some "null".toList
  else if c = 't' then some "true".toList
  else if c = 'f' then some "false".toList
  else none

mutual

/-- The characters behind a value. -/
def skipValue : (fuel : Nat) → List Char → Option (List Char)
  | 0,_ => none
  | n+1,rest => match skipBlanks rest with
    | [] => none
    | c :: r =>
      if c = '"' then skipText r
      else if c = '[' then
        match skipBlanks r with
        | ']' :: r => some r
        | r => skipItems n r
      else if c = '{' then
        match skipBlanks r with
        | '}' :: r => some r
        | r => skipMembers n r
      else match word? c with
        | some word => skipWord word (c :: r)
        | none => (number? (c :: r)).map (·.2)

/-- The characters behind the items of an array, of which one follows. -/
def skipItems : (fuel : Nat) → List Char → Option (List Char)
  | 0,_ => none
  | n+1,rest => do
    let r ← skipValue n rest
    match skipBlanks r with
    | ',' :: r => skipItems n r
    | ']' :: r => some r
    | _ => none

/-- The characters behind the members of an object, of which one follows. -/
def skipMembers : (fuel : Nat) → List Char → Option (List Char)
  | 0,_ => none
  | n+1,rest => match skipBlanks rest with
    | '"' :: r => do
      let r ← skipText r
      match skipBlanks r with
      | ':' :: r => do
        let r ← skipValue n r
        match skipBlanks r with
        | ',' :: r => skipMembers n r
        | '}' :: r => some r
        | _ => none
      | _ => none
    | _ => none

end

/-- The characters behind any value. Two calls at most are made for a character. -/
def skipAny (rest : List Char) : Option (List Char) := skipValue (2*rest.length+2) rest

end Keyring.Json
