import Keyring.Json.Number

/-! What a plain scalar stands for when it is not taken as text. -/
namespace Keyring.Yaml.Scalar

def isNull (t : List Char) : Bool := ["null","Null","NULL","~"].contains (String.ofList t)

def isBool (t : List Char) : Bool :=
  ["true","True","TRUE","false","False","FALSE"].contains (String.ofList t)

/-- The value of a digit of a base up to 16. -/
def digit? (base : Nat) (c : Char) : Option Nat :=
  let n := c.toNat
  let v := if c.isDigit then n-48 else if 97 ≤ n ∧ n ≤ 102 then n-87 else if 65 ≤ n ∧ n ≤ 70 then n-55
    else base
  if v < base then some v else none

/-- The value of one or more digits. -/
def natural? (base : Nat) (t : List Char) : Option Nat :=
  if t = [] then none else t.foldlM (fun n c => (digit? base c).map (base*n + ·)) 0

/-- A text without one sign of the list. -/
def unsigned (signs t : List Char) : List Char :=
  match t with
  | c :: r => if signs.contains c then r else t
  | [] => []

/-- Digits with a leading zero are no number. -/
def isPadded (t : List Char) : Bool :=
  match unsigned ['-','+'] t with
  | '0' :: c :: r => (c :: r).all Char.isDigit
  | _ => false

/-- The digits of a number in base ten, or behind the mark of another base. -/
def magnitude? (t : List Char) : Option Nat :=
  match t with
  | '0' :: 'x' :: r => natural? 16 r
  | '0' :: 'o' :: r => natural? 8 r
  | '0' :: 'b' :: r => natural? 2 r
  | _ => natural? 10 t

/-- Whether the text is an integer of 128 bits. -/
def isInt (t : List Char) : Bool :=
  !isPadded t && match t with
  | '-' :: r => (magnitude? r).any (· ≤ Nat.pow 2 127)
  | _ => (magnitude? (unsigned ['+'] t)).any (· < Nat.pow 2 128)

/-- The exponent after its letter. -/
def exponent? (t : List Char) : Option Int :=
  match t with
  | '-' :: r => (natural? 10 r).map fun n => -(n : Int)
  | _ => (natural? 10 (unsigned ['+'] t)).map Int.ofNat

/-- Whether an unsigned decimal number, with or without a point and an exponent, is finite. -/
def isFinite (t : List Char) : Bool :=
  let whole := t.takeWhile Char.isDigit
  let r := t.dropWhile Char.isDigit
  let (places,r) := match r with
    | '.' :: r => (r.takeWhile Char.isDigit,r.dropWhile Char.isDigit)
    | _ => ([],r)
  let power := match r with
    | [] => some 0
    | c :: r => if c = 'e' ∨ c = 'E' then exponent? r else none
  match natural? 10 (whole ++ places), power with
  | some m,some e => Binary64.isFiniteDecimal m (e - places.length)
  | _,_ => false

/-- Whether the text is a floating-point number. An infinite value has a spelling of its own. -/
def isFloat (t : List Char) : Bool :=
  let s := String.ofList t
  [".inf",".Inf",".INF","+.inf","+.Inf","+.INF","-.inf","-.Inf","-.INF",".nan",".NaN",".NAN"].contains s ||
    isFinite (unsigned ['+','-'] t)

/-- Whether a plain scalar of this text could be taken for something other than the text. -/
def isAmbiguous (t : List Char) : Bool :=
  t == [] || isNull t || isBool t || isInt t || isPadded t || isFloat t

end Keyring.Yaml.Scalar
