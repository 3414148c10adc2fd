import Keyring.Json.Value
import Keyring.Shape

/-! Values read from a JSON text. -/
namespace Keyring.Json

abbrev Read := Except Shape.Fault

def malformed {α : Type} : Read α := .error .malformed

def wrongKind {α : Type} : Read α := .error ⟨"",.wrongKind⟩

/-- The complaint about a value that should have been of another kind. Words, numbers and texts are
read to their ends first, arrays and objects are not looked into. -/
def otherKind {α : Type} : List Char → Read α
  | [] => malformed
  | c :: r =>
    if c = '[' ∨ c = '{' then wrongKind
    else if c = '"' then if (readText r).isSome then wrongKind else malformed
    else match word? c with
      | some word => if (skipWord word (c :: r)).isSome then wrongKind else malformed
      | none => match number? (c :: r) with
        | some (x,_) => if x.isInRange then wrongKind else malformed
        | none => malformed

/-- A text, and the characters behind it. -/
def text (rest : List Char) : Read (String × List Char) :=
  match skipBlanks rest with
  | '"' :: r => match readText r with
    | some (t,r) => .ok (String.ofList t,r)
    | none => malformed
  | r => otherKind r

/-- Nothing but blanks may follow the value at the root. -/
def finish {α : Type} (a : α) (rest : List Char) : Read α :=
  if skipBlanks rest = [] then .ok a else malformed

/-- Takes in a member whose name was read, and yields the characters behind it. Members that are not
the record's are passed over. -/
def member {σ : Type} (F : Shape.Fields σ) (s : σ) (name : String) (rest : List Char) :
    Read (σ × List Char) :=
  match F.seen? s name, skipBlanks rest with
  | some true,_ => .error ⟨"",.duplicateField name⟩
  | some false,':' :: r => do
    let (value,r) ← text r
    match F.put s name value with
    | .ok s => .ok (s,r)
    | .error reason => .error ⟨"",.refused reason⟩
  | none,':' :: r => match skipAny r with
    | some r => .ok (s,r)
    | none => malformed
  | _,_ => malformed

/-- The members of an object, of which one follows. -/
def members {σ : Type} (F : Shape.Fields σ) : (fuel : Nat) → σ → List Char → Read (σ × List Char)
  | 0,_,_ => malformed
  | n+1,s,rest => match rest with
    | '"' :: r => match readText r with
      | none => malformed
      | some (name,r) => do
        let (s,r) ← member F s (String.ofList name) r
        match skipBlanks r with
        | ',' :: r => members F n s (skipBlanks r)
        | '}' :: r => .ok (s,r)
        | _ => malformed
    | _ => malformed

/-- A record of a single field, written as an object or as an array of at most one item. -/
def record {σ : Type} (F : Shape.Fields σ) (field : String) (rest : List Char) : Read (σ × List Char) :=
  match skipBlanks rest with
  | '{' :: r => match skipBlanks r with
    | '}' :: r => .ok (F.empty,r)
    | r => members F (r.length+1) F.empty r
  | '[' :: r => match skipBlanks r with
    | ']' :: r => .ok (F.empty,r)
    | r => do
      let (value,r) ← text r
      match F.put F.empty field value with
      | .error reason => .error ⟨"",.refused reason⟩
      | .ok s => match skipBlanks r with
        | ']' :: r => .ok (s,r)
        | _ => malformed
  | r => otherKind r

end Keyring.Json
