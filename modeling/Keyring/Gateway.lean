import Keyring.Id
import Keyring.PublicKey
import Keyring.Sha256

/-! A gateway: its local identifier, its key and the public identity that the key gives. Only keys with an even
public key give one: the ThingsIX ID leaves out the leading byte, so the key of an odd point could not be told from
its negative. -/
namespace Keyring

/-- Why a public key has no identity. -/
inductive IdentityFault where
  | lead (byte : UInt8)
  deriving DecidableEq

def byteText (b : UInt8) : String := "0x" ++ Hex.encode [b]

def IdentityFault.message : IdentityFault → String
  | lead b => "public key has prefix " ++ byteText b ++ ", expected " ++ byteText PublicKey.evenLead

/-- The two identifiers that others know a gateway by. -/
structure Identity where
  networkId : Eui64
  thingsIxId : ThingsIxId
  deriving DecidableEq

namespace PublicKey

/-- The first coordinate of the point. -/
def thingsIxId (key : PublicKey) : Except IdentityFault ThingsIxId :=
  if key.IsEven then .ok ⟨key.x,key.length_x⟩ else .error (.lead key.lead)

/-- The first eight bytes of the hash of the compressed key. -/
def networkId (key : PublicKey) : Eui64 :=
  ⟨(Sha256.digest key.compressed).take 8,by simp [IdKind.width]⟩

def identity (key : PublicKey) : Except IdentityFault Identity :=
  key.thingsIxId.map fun id => ⟨key.networkId,id⟩

end PublicKey

structure Gateway where
  localId : Eui64
  networkId : Eui64
  thingsIxId : ThingsIxId
  key : Key
  deriving DecidableEq

namespace Gateway

def new (pub : PublicKeyMap) (localId : Eui64) (key : Key) : Except IdentityFault Gateway :=
  (pub key).identity.map fun i => ⟨localId,i.networkId,i.thingsIxId,key⟩

end Gateway

/-- A key is shown by its public key only. -/
def Key.shown (pub : PublicKeyMap) (key : Key) : String :=
  "GatewayKey \x7b public_key: " ++ Text.quoted (pub key).toHex ++ ", .. \x7d"

/-- The same over several lines. -/
def Key.shownLong (pub : PublicKeyMap) (key : Key) : String :=
  "GatewayKey \x7b\n    public_key: " ++ Text.quoted (pub key).toHex ++ ",\n    ..\n\x7d"

def Gateway.shown (pub : PublicKeyMap) (gateway : Gateway) : String :=
  "Gateway \x7b local_id: " ++ gateway.localId.shown ++ ", network_id: " ++ gateway.networkId.shown ++
    ", thingsix_id: " ++ gateway.thingsIxId.shown ++ ", key: " ++ gateway.key.shown pub ++ " \x7d"

end Keyring
