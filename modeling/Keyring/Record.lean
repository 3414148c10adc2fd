import Keyring.Error
import Keyring.Yaml.Decode

/-! Gateways as a store keeps them: the local identifier and the private key, both as texts. -/
namespace Keyring

structure Record where
  localId : Eui64
  privateKey : String
  deriving DecidableEq

namespace Record

/-- The fields of a record read so far. -/
structure Partial where
  localId : Option Eui64 := none
  privateKey : Option String := none

def fields : Shape.Fields Partial where
  empty := {}
  seen? p name :=
    if name = "local_id" then some p.localId.isSome
    else if name = "private_key" then some p.privateKey.isSome
    else none
  put p name value :=
    if name = "local_id" then
      match Id.parse .eui64 value with
      | .ok id => .ok { p with localId := some id }
      | .error fault => .error (Error.ofIdFault fault).message
    else .ok { p with privateKey := some value }

/-- The record of its fields; the identifier is missed first. -/
def Partial.complete (path : String) (p : Partial) : Yaml.Read Record :=
  match p.localId, p.privateKey with
  | none,_ => .error ⟨path,.missingField "local_id"⟩
  | some _,none => .error ⟨path,.missingField "private_key"⟩
  | some id,some key => .ok ⟨id,key⟩

def read (d : Yaml.Document) (path : String) (w : Yaml.Walk) : Yaml.Read (Record × Yaml.Walk) := do
  let (p,w) ← d.record fields path w
  let r ← p.complete path
  .ok (r,w)

/-- All records of a text. -/
def readAll (bytes : Bytes) : Yaml.Read (List Record) :=
  let d := Yaml.Document.ofSource (.ofBytes bytes)
  d.accept (d.rootList (read d))

/-- A text written so that it reads as itself: in quotes if it could be taken for something else. -/
def written (text : List Char) : List Char :=
  if Yaml.Scalar.isAmbiguous text then '\'' :: text ++ ['\''] else text

/-- A record written as a list of its own. -/
def write (r : Record) : List Char :=
  "- local_id: ".toList ++ written r.localId.toHex.toList ++
    "\n  private_key: ".toList ++ written r.privateKey.toList ++ ['\n']

def ofGateway (g : Gateway) : Record := ⟨g.localId,g.key.toHex⟩

/-- The gateway of a record, which is the one at `index`. -/
def gateway (pub : PublicKeyMap) (index : Nat) (r : Record) : Except Error Gateway :=
  match Key.ofHex r.privateKey with
  | .error fault => .error (.keyDecode index (.known fault))
  | .ok key => match Gateway.new pub r.localId key with
    | .error fault => .error (.derivation index (.known fault))
    | .ok g => .ok g

/-- The gateways of records, of which the first is the one at `index`. -/
def gateways (pub : PublicKeyMap) : (index : Nat) → List Record → Except Error (List Gateway)
  | _,[] => .ok []
  | i,r :: rs => do
    let g ← r.gateway pub i
    let gs ← gateways pub (i+1) rs
    .ok (g :: gs)

end Record

namespace Gateway

/-- The gateways that a store's file holds. All records are read before a key is looked at. -/
def decode (pub : PublicKeyMap) (bytes : Bytes) : Except Error (List Gateway) :=
  if bytes.all Text.isBlankByte then .ok []
  else match Record.readAll bytes with
    | .error fault => .error (.decode (.known (.records fault)))
    | .ok records => Record.gateways pub 0 records

/-- What a store's file holds of one gateway. -/
def encode (g : Gateway) : Bytes := Text.utf8 (Record.ofGateway g).write

end Gateway
end Keyring
