import Keyring.Key

/-! Public keys in compressed form: a byte for the parity of the second coordinate of the point, then
the first coordinate. -/
namespace Keyring

structure PublicKey where
  lead : UInt8
  x : Bytes
  length_x : x.length = 32
  deriving DecidableEq

namespace PublicKey

/-- The leading byte of a point whose second coordinate is even. -/
def evenLead : UInt8 := 0x02

/-- The leading byte of a point whose second coordinate is odd. -/
def oddLead : UInt8 := 0x03

def IsEven (key : PublicKey) : Prop := key.lead = evenLead

instance (key : PublicKey) : Decidable key.IsEven := inferInstanceAs (Decidable (_ = _))

def compressed (key : PublicKey) : Bytes := key.lead :: key.x

def toHex (key : PublicKey) : String := Hex.encode key.compressed

/-- The public key of 33 bytes. -/
def ofBytes? : Bytes → Option PublicKey
  | [] => none
  | b :: x => if h : x.length = 32 then some ⟨b,x,h⟩ else none

end PublicKey

/-- How a private key gives its public key. The rest of the library needs nothing else of a curve, so
it takes this map as a parameter. -/
abbrev PublicKeyMap := Key → PublicKey

end Keyring
