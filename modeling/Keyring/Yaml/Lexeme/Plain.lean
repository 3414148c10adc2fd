import Keyring.Yaml.Lexeme.Gap

/-! Scalars without quotes. -/
namespace Keyring.Yaml

/-- The characters with a meaning of their own inside brackets. -/
def isFlowIndicator (c : Char) : Bool :=
  c == ',' || c == '[' || c == ']' || c == '{' || c == '}'

/-- Characters that begin another kind of token. -/
def isIndicator (c : Char) : Bool := isFlowIndicator c || "-?:#&*!|>'\"%@`".toList.contains c

/-- Whether a plain scalar begins here. A hyphen, question mark or colon may begin one if something
follows it directly; inside brackets, only the hyphen may. -/
def startsPlain (flow : Bool) : List Char → Bool
  | [] => false
  | c :: r =>
    (!isSpace c && !isIndicator c) ||
      (c == '-' && !(match r with | [] => false | d :: _ => isBlank d)) ||
      (!flow && (c == '?' || c == ':') && !atSpace r)

/-- Whether a plain scalar ends before these characters. -/
def endsPlain (flow : Bool) : List Char → Bool
  | [] => true
  | c :: r => (c == ':' && atSpace r) || (flow && isFlowIndicator c)

/-- A colon inside brackets must not stand right before an indicator. -/
def isStrayColon (flow : Bool) : List Char → Bool
  | ':' :: d :: _ => flow && (isFlowIndicator d || d == '?')
  | _ => false

/-- The rest of a scalar whose lines must reach column `indent`, unless it is inside brackets. The
result tells whether a line was broken after the last word. -/
def plainFrom (margin : Margin) (flow : Bool) (indent : Nat) :
    Gap → Mark → List Char → Option (List Char × Bool × Cursor)
  | gap,m,[] => if margin.lacks 1 [] then none else some ([],gap.isBroken,⟨m,[]⟩)
  | gap,m,c :: r =>
    if isSpace c then
      if gap.isBroken ∧ m.column < indent ∧ c = '\t' then none
      else plainFrom margin flow indent (gap.push c) (m.after c) r
    else
      let inGap := gap ≠ .none
      let done := some ([],gap.isBroken,⟨m,c :: r⟩)
      if inGap ∧ ¬flow ∧ m.column < indent then done
      else if margin.lacks gap.ahead (c :: r) then none
      else if inGap ∧ (m.column = 0 ∧ isDocumentMark (c :: r) ∨ c = '#') then done
      else if isStrayColon flow (c :: r) then none
      else if endsPlain flow (c :: r) then done
      else before (gap.text ++ [c]) (plainFrom margin flow indent .none (m.after c) r)

def plain (margin : Margin) (flow : Bool) (indent : Nat) (start : Cursor) :
    Option (List Char × Bool × Cursor) :=
  plainFrom margin flow indent .none start.mark start.rest

end Keyring.Yaml
