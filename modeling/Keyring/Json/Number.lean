/-! Numbers in JSON, and which numbers a 64-bit binary float can hold. -/
namespace Keyring

namespace Binary64

/-- A number from here on rounds to infinity: the greatest finite value and half a step more. -/
def overflow : Nat := Nat.pow 2 1024 - Nat.pow 2 970

/-- Whether the value of m · 10^e is finite. More than as many places as `m` has bits need not be
looked at. -/
def isFiniteDecimal (m : Nat) (e : Int) : Bool :=
  match e with
  | .ofNat e => m = 0 || (e ≤ 400 && m * Nat.pow 10 e < overflow)
  | .negSucc e => m < overflow * Nat.pow 10 (min (e+1) (m.log2+1))

/-- The nearest number with at most 53 binary digits, of two the one whose last digit is even. -/
def round (n : Nat) : Nat :=
  if n < Nat.pow 2 53 then n
  else
    let unit := Nat.pow 2 (n.log2 - 52)
    let q := n / unit
    let r := n % unit
    (if unit < 2*r || (2*r == unit && q%2 == 1) then q+1 else q) * unit

/-- Whether a value of `significand` times a power of ten stays finite when both are rounded before
they are multiplied. -/
def isFiniteProduct (significand : Nat) (e : Int) : Bool :=
  match e with
  | .ofNat e => significand = 0 || (e ≤ 308 && round significand * round (Nat.pow 10 e) < overflow)
  | .negSucc _ => true

end Binary64

namespace Json

/-- The parts of a number as they are written. -/
structure Number where
  whole : List Char
  places : List Char
  /-- Whether the exponent is negative, and its digits. -/
  exponent : Option (Bool × List Char)

/-- The digits of an exponent, behind its letter. -/
def exponent? (rest : List Char) : Option ((Bool × List Char) × List Char) :=
  let (negative,r) := match rest with
    | '+' :: r => (false,r)
    | '-' :: r => (true,r)
    | r => (false,r)
  let digits := r.takeWhile Char.isDigit
  if digits = [] then none else some ((negative,digits),r.dropWhile Char.isDigit)

/-- Reads a number. It has no zero before other digits of its whole part, and digits follow a point and
an exponent's letter. -/
def number? (rest : List Char) : Option (Number × List Char) := do
  let r := match rest with
    | '-' :: r => r
    | r => r
  let whole := r.takeWhile Char.isDigit
  let r := r.dropWhile Char.isDigit
  if whole = [] ∨ whole.head? = some '0' ∧ whole.length ≠ 1 then none
  else do
    let (places,r) ← match r with
      | '.' :: r =>
        let places := r.takeWhile Char.isDigit
        if places = [] then none else some (places,r.dropWhile Char.isDigit)
      | r => some ([],r)
    match r with
    | c :: r' =>
      if c = 'e' ∨ c = 'E' then do
        let (e,r) ← exponent? r'
        some (⟨whole,places,some e⟩,r)
      else some (⟨whole,places,none⟩,r)
    | [] => some (⟨whole,places,none⟩,[])

namespace Number

/-- Takes in digits as long as the value has 64 bits, and yields how many are left. -/
def significand (n : Nat) : List Char → Nat × Nat
  | [] => (n,0)
  | c :: r =>
    let m := 10*n + (c.toNat - 48)
    if m < Nat.pow 2 64 then significand m r else (n,r.length+1)

/-- Whether the number is within the range of 64-bit floats. Digits that do not fit into the
significand count by their place only. -/
def isInRange (x : Number) : Bool :=
  let (s,extra) := significand 0 x.whole
  let (s,dropped) := significand s x.places
  let e : Int := (extra : Int) - ((x.places.length - dropped : Nat) : Int)
  match x.exponent with
  | none => x.places = [] && extra = 0 || Binary64.isFiniteProduct s e
  | some (negative,digits) =>
    let n : Nat := digits.foldl (fun n c => 10*n + (c.toNat - 48)) 0
    if n < Nat.pow 2 31 then Binary64.isFiniteProduct s (if negative then e - (n : Int) else e + (n : Int))
    else negative || s = 0

end Number
end Json
end Keyring
