import Keyring.Hex

/-! Identifiers of a fixed width: the 64-bit extended unique identifier of a gateway, and the 32-byte
network-wide identity. Both are written as lowercase hexadecimal digits. -/
namespace Keyring

inductive IdKind where
  | eui64
  | thingsIx
  deriving DecidableEq

namespace IdKind

def width : IdKind → Nat
  | eui64 => 8
  | thingsIx => 32

/-- How messages name the kind. -/
def label : IdKind → String
  | eui64 => "EUI64"
  | thingsIx => "ThingsIX ID"

/-- The name of the kind's type, as a value of it is shown. -/
def typeName : IdKind → String
  | eui64 => "Eui64"
  | thingsIx => "ThingsIxId"

end IdKind

/-- Why a text or a byte string is no identifier. -/
inductive IdFault where
  | notHex (kind : IdKind) (text : String) (fault : Hex.Fault)
  | width (expected actual : Nat)
  deriving DecidableEq

structure Id (kind : IdKind) where
  bytes : Bytes
  width_eq : bytes.length = kind.width
  deriving DecidableEq

abbrev Eui64 := Id .eui64
abbrev ThingsIxId := Id .thingsIx

namespace Id

variable {kind : IdKind}

theorem ext {a b : Id kind} (h : a.bytes = b.bytes) : a = b := by
  cases a; cases b; cases h; rfl

def ofBytes (kind : IdKind) (bytes : Bytes) : Except IdFault (Id kind) :=
  if h : bytes.length = kind.width then .ok ⟨bytes,h⟩ else .error (.width kind.width bytes.length)

/-- The digits of a text: one leading `0x` or `0X` does not count. -/
def digits : List Char → List Char
  | '0' :: 'x' :: r => r
  | '0' :: 'X' :: r => r
  | text => text

def parse (kind : IdKind) (text : String) : Except IdFault (Id kind) :=
  match Hex.decode (Text.utf8 (digits text.toList)) with
  | .ok bytes => ofBytes kind bytes
  | .error fault => .error (.notHex kind text fault)

def toHex (id : Id kind) : String := Hex.encode id.bytes

/-- The form in which a value shows itself inside another. -/
def shown (id : Id kind) : String := kind.typeName ++ "(" ++ id.toHex ++ ")"

/-- All bytes zero. -/
def zero (kind : IdKind) : Id kind := ⟨List.replicate kind.width 0,List.length_replicate⟩

/-- Identifiers are ordered by their first byte that differs. -/
def compareBytes : Bytes → Bytes → Ordering
  | [],[] => .eq
  | [],_ :: _ => .lt
  | _ :: _,[] => .gt
  | a :: r,b :: s => (compare a b).then (compareBytes r s)

instance : Ord (Id kind) where
  compare a b := compareBytes a.bytes b.bytes

end Id
end Keyring
