import Keyring.Yaml.Lexeme.Gap
import Keyring.Hex

/-! Scalars in quotes. At most four characters are looked at, where a word may begin. -/
namespace Keyring.Yaml

/-- The character that a short escape stands for. -/
def escaped? (c : Char) : Option Char :=
  match c with
  | '0' => some '\x00'
  | 'a' => some '\x07'
  | 'b' => some '\x08'
  | 't' => some '\t'
  | '\t' => some '\t'
  | 'n' => some '\n'
  | 'v' => some '\x0b'
  | 'f' => some '\x0c'
  | 'r' => some '\r'
  | 'e' => some '\x1b'
  | ' ' => some ' '
  | '"' => some '"'
  | '/' => some '/'
  | '\\' => some '\\'
  | 'N' => some '\u0085'
  | '_' => some '\u00a0'
  | 'L' => some '\u2028'
  | 'P' => some '\u2029'
  | _ => none

/-- How many digits follow a numeric escape. -/
def escapeDigits? (c : Char) : Option Nat :=
  match c with
  | 'x' => some 2
  | 'u' => some 4
  | 'U' => some 8
  | _ => none

/-- The rest of a scalar in single quotes. `gap` is the space since its last word. A quote inside the
scalar is written twice. -/
def singleFrom (margin : Margin) : Gap → Mark → List Char → Option (List Char × Cursor)
  | _,_,[] => none
  | gap,m,'\'' :: '\'' :: r =>
    if margin.lacks gap.ahead ('\'' :: '\'' :: r) then none
    else before (gap.text ++ ['\'']) (singleFrom margin .none (m.right 2) r)
  | gap,m,c :: r =>
    if isSpace c then singleFrom margin (gap.push c) (m.after c) r
    else if margin.lacks gap.ahead (c :: r) then none
    else if m.column = 0 ∧ isDocumentMark (c :: r) then none
    else if c = '\'' then some (gap.text,⟨m.right 1,r⟩)
    else before (gap.text ++ [c]) (singleFrom margin .none (m.after c) r)

/-- Where one stands in an escape. -/
inductive Escape where
  | outside
  /-- Behind the backslash. -/
  | begun
  /-- Among the digits of a code: how many are missing, and the value of those before. -/
  | code (missing value : Nat)

/-- Whether an escaped line break stands right before. -/
def isJoint (gap : Gap) (m : Mark) : Bool := gap == .breaks none [] && m.column == 0

/-- The rest of a scalar in double quotes. `gap` is the space since its last word. Nothing is looked at
behind a quote that follows an escaped line break. -/
def doubleFrom (margin : Margin) : Escape → Gap → Mark → List Char → Option (List Char × Cursor)
  | _,_,_,[] => none
  | .outside,gap,m,c :: r =>
    if isSpace c then doubleFrom margin .outside (gap.push c) (m.after c) r
    else if !(c == '"' && isJoint gap m) && margin.lacks gap.ahead (c :: r) then none
    else if m.column = 0 ∧ isDocumentMark (c :: r) then none
    else if c = '"' then some (gap.text,⟨m.right 1,r⟩)
    else if c = '\\' then before gap.text (doubleFrom margin .begun .none (m.right 1) r)
    else before (gap.text ++ [c]) (doubleFrom margin .outside .none (m.after c) r)
  | .begun,_,m,c :: r =>
    if isBreak c then doubleFrom margin .outside (.breaks none []) m.nextLine r
    else match escaped? c, escapeDigits? c with
      | some x,_ => before [x] (doubleFrom margin .outside .none (m.right 1) r)
      | none,some n => doubleFrom margin (.code n 0) .none (m.right 1) r
      | none,none => none
  | .code missing value,_,m,c :: r =>
    match Hex.charValue? c with
    | none => none
    | some d =>
      let value := 16*value + d
      if missing ≤ 1 then match Text.charOf? value with
        | some x => before [x] (doubleFrom margin .outside .none (m.right 1) r)
        | none => none
      else doubleFrom margin (.code (missing-1) value) .none (m.right 1) r

/-- A scalar in single quotes, of which the opening one is the next character. -/
def singleQuoted (margin : Margin) (start : Cursor) : Option (List Char × Cursor) :=
  if margin.lacks 4 start.rest.tail then none
  else singleFrom margin .none (start.mark.right 1) start.rest.tail

/-- A scalar in double quotes, of which the opening one is the next character. -/
def doubleQuoted (margin : Margin) (start : Cursor) : Option (List Char × Cursor) :=
  if margin.lacks 4 start.rest.tail then none
  else doubleFrom margin .outside .none (start.mark.right 1) start.rest.tail

end Keyring.Yaml
