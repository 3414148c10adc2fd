import Keyring.PublicKey

/-! The curve y² = x³ + 7 over the integers modulo a 256-bit prime, and the public keys on it. -/
namespace Keyring.Secp256k1

def fieldOrder : Nat := 0xfffffffffffffffffffffffffffffffffffffffffffffffffffffffefffffc2f

def baseX : Nat := 0x79be667ef9dcbbac55a06295ce870b07029bfcdb2dce28d959f2815b16f81798
def baseY : Nat := 0x483ada7726a3c4655da4fbfc0e1108a8fd17b448a68554199c47d08ffb10d4b8

def mul (a b : Nat) : Nat := a*b % fieldOrder

/-- The difference of two numbers, the second of them below the field's order. -/
def sub (a b : Nat) : Nat := (a + (fieldOrder-b)) % fieldOrder

/-- The binary digits of a number, lowest first, `count` of them at most. -/
def bits : (count n : Nat) → List Bool
  | 0,_ => []
  | c+1,n => if n = 0 then [] else (n%2 == 1) :: bits c (n/2)

/-- A power modulo `m`, by squaring. -/
def power (m a n : Nat) : Nat := (bits 256 n).foldr (fun b r => let s := r*r%m; if b then s*a%m else s) 1

/-- By Fermat's little theorem. -/
def inverse (a : Nat) : Nat := power fieldOrder a (fieldOrder-2)

/-- A point in Jacobian coordinates, which stands for (x/z², y/z³); z = 0 is the neutral element. -/
structure Point where
  (x y z : Nat)

namespace Point

def neutral : Point := ⟨1,1,0⟩
def base : Point := ⟨baseX,baseY,1⟩

def double (p : Point) : Point :=
  if p.z = 0 then neutral
  else
    let yy := mul p.y p.y
    let s := mul 4 (mul p.x yy)
    let m := mul 3 (mul p.x p.x)
    let x := sub (mul m m) (mul 2 s)
    ⟨x,sub (mul m (sub s x)) (mul 8 (mul yy yy)),mul 2 (mul p.y p.z)⟩

/-- Adds the base point. -/
def addBase (p : Point) : Point :=
  if p.z = 0 then base
  else
    let zz := mul p.z p.z
    let h := sub (mul baseX zz) p.x
    let r := sub (mul baseY (mul p.z zz)) p.y
    if h = 0 then if r = 0 then double p else neutral
    else
      let hh := mul h h
      let hhh := mul h hh
      let v := mul p.x hh
      let x := sub (sub (mul r r) hhh) (mul 2 v)
      ⟨x,sub (mul r (sub v x)) (mul p.y hhh),mul p.z h⟩

/-- The `n`-fold sum of the base point. -/
def multiple (n : Nat) : Point :=
  (bits 256 n).foldr (fun b p => let d := double p; if b then addBase d else d) neutral

/-- The coordinates of a point other than the neutral one. -/
def affine (p : Point) : Nat × Nat :=
  let i := inverse p.z
  let ii := mul i i
  (mul p.x ii,mul p.y (mul i ii))

end Point

def publicKey : PublicKeyMap := fun key =>
  let p := (Point.multiple key.scalar).affine
  ⟨if p.2 % 2 = 0 then PublicKey.evenLead else PublicKey.oddLead,BigEndian.ofNat 32 p.1,
    BigEndian.length_ofNat _ _⟩

theorem isEven_publicKey_one : (publicKey .one).IsEven := by decide +kernel

end Keyring.Secp256k1
