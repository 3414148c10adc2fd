import Keyring.Hex

/-! Private keys: the scalars from one to one less than the order of the group secp256k1. A key is
written as its 32 bytes, highest first, or as their hexadecimal digits. -/
namespace Keyring

namespace BigEndian

/-- The number of bytes, of which the first is the highest. -/
def toNat (bytes : Bytes) : Nat := bytes.foldl (fun n b => 256*n + b.toNat) 0

/-- The lowest `width` bytes of a number. -/
def ofNat : (width n : Nat) → Bytes
  | 0,_ => []
  | w+1,n => ofNat w (n/256) ++ [UInt8.ofNat n]

@[simp] theorem length_ofNat (w n : Nat) : (ofNat w n).length = w := by
  induction w generalizing n with
  | zero => rfl
  | succ w ih => simp [ofNat,ih]

end BigEndian

/-- The number of points of the group. -/
def groupOrder : Nat := 0xfffffffffffffffffffffffffffffffebaaedce6af48a03bbfd25e8cd0364141

/-- Why a text or a byte string is no private key. -/
inductive KeyFault where
  | notHex (fault : Hex.Fault)
  | width (actual : Nat)
  | outOfRange
  deriving DecidableEq

def KeyFault.message : KeyFault → String
  | notHex fault => "invalid hex: " ++ fault.message
  | width n => "private key must be 32 bytes, got " ++ toString n
  | outOfRange => "invalid secp256k1 scalar"

structure Key where
  scalar : Nat
  pos : 0 < scalar
  lt_order : scalar < groupOrder
  deriving DecidableEq

namespace Key

def ofScalar? (n : Nat) : Option Key :=
  if h : 0 < n ∧ n < groupOrder then some ⟨n,h.1,h.2⟩ else none

def ofBytes (bytes : Bytes) : Except KeyFault Key :=
  if bytes.length ≠ 32 then .error (.width bytes.length)
  else match ofScalar? (BigEndian.toNat bytes) with
    | some key => .ok key
    | none => .error .outOfRange

def ofHex (text : String) : Except KeyFault Key :=
  match Hex.decodeText text with
  | .ok bytes => ofBytes bytes
  | .error fault => .error (.notHex fault)

def toBytes (key : Key) : Bytes := BigEndian.ofNat 32 key.scalar

def toHex (key : Key) : String := Hex.encode key.toBytes

/-- The key of the scalar one. -/
def one : Key := ⟨1,by decide,by decide⟩

instance : Inhabited Key := ⟨one⟩

/-- The key whose point is the negative of this key's. -/
def neg (key : Key) : Key :=
  ⟨groupOrder - key.scalar,Nat.sub_pos_of_lt key.lt_order,Nat.sub_lt (by decide) key.pos⟩

end Key
end Keyring
