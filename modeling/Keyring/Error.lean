import Keyring.Gateway
import Keyring.Shape
import Keyring.SystemError

/-! The failures of the library, each by its cause. Their texts never show a private key. -/
namespace Keyring

/-- A cause of a known kind, or one that is only described. -/
inductive Cause (α : Type) where
  | known (cause : α)
  | described (text : String)
  deriving DecidableEq

def Cause.text {α : Type} (message : α → String) : Cause α → String
  | known cause => message cause
  | described text => text

/-- What could not be decoded. -/
inductive DecodeFault where
  | id (kind : IdKind) (text : String) (fault : Hex.Fault)
  | records (fault : Shape.Fault)
  | config (fault : Shape.Fault)
  deriving DecidableEq

def DecodeFault.message : DecodeFault → String
  | id kind text fault =>
    "invalid " ++ kind.label ++ " " ++ Text.quoted text ++ ": " ++ fault.message
  | records fault => fault.message
  | config fault => "invalid store config: " ++ fault.message

inductive Error where
  | notFound
  | invalidId (expected actual : Nat)
  | alreadyExists (id : Eui64)
  /-- The store's file is there but could not be read. -/
  | unavailable (cause : SystemError)
  | decode (cause : Cause DecodeFault)
  /-- The private key of a record was refused. -/
  | keyDecode (index : Nat) (cause : Cause KeyFault)
  /-- The key of a record has no identity. -/
  | derivation (index : Nat) (cause : Cause IdentityFault)
  | encode (text : String)
  | invalidKey (cause : Cause KeyFault)
  | derivationFailed (cause : Cause IdentityFault)
  | system (cause : SystemError)
  deriving DecidableEq

namespace Error

def ofIdFault : IdFault → Error
  | .notHex kind text fault => decode (.known (.id kind text fault))
  | .width expected actual => invalidId expected actual

def ofKeyFault (fault : KeyFault) : Error := invalidKey (.known fault)

def ofIdentityFault (fault : IdentityFault) : Error := derivationFailed (.known fault)

def invalidKeyText (text : String) : String := "Invalid key: " ++ text

def derivationFailedText (text : String) : String := "Identity derivation failed: " ++ text

/-- Why the key of a record was refused, in the words of the failure that refused it. -/
def keyReason (cause : Cause KeyFault) : String :=
  cause.text fun fault => invalidKeyText fault.message

def derivationReason (cause : Cause IdentityFault) : String :=
  cause.text fun fault => derivationFailedText fault.message

def message : Error → String
  | notFound => "gateway not found"
  | invalidId expected actual =>
    "invalid gateway id: expected " ++ toString expected ++ " bytes, got " ++ toString actual
  | alreadyExists id => "gateway already exists: " ++ id.toHex
  | unavailable cause => "gateway store unavailable: " ++ cause.message
  | decode cause => "unable to load gateway store: " ++ cause.text DecodeFault.message
  | keyDecode index cause => "could not decode private key of gateway #" ++ toString index ++
      " from store: " ++ keyReason cause
  | derivation index cause =>
    "unable to load gateway #" ++ toString index ++ " from store: " ++ derivationReason cause
  | encode text => "unable to encode gateway store: " ++ text
  | invalidKey cause => invalidKeyText (cause.text KeyFault.message)
  | derivationFailed cause => derivationFailedText (cause.text IdentityFault.message)
  | system cause => "IO error: " ++ cause.message

def isNotFound (e : Error) : Bool := e == notFound

/-- The failure of the system behind this one. -/
def source? : Error → Option SystemError
  | unavailable cause => some cause
  | system cause => some cause
  | _ => none

/-- A failure shown by its name and the one text that it holds. -/
def shownText (name text : String) : String := name ++ "(" ++ Text.quoted text ++ ")"

/-- A failure shown by its name, the place of the record and the reason for it. -/
def shownAt (name : String) (index : Nat) (reason : String) : String :=
  name ++ " \x7b index: " ++ toString index ++ ", reason: " ++ Text.quoted reason ++ " \x7d"

/-- A failure shown by its name and fields. The failures of the system show themselves in their own
way, and have no such form here. -/
def shown? : Error → Option String
  | notFound => some "NotFound"
  | invalidId expected actual => some ("InvalidGatewayId \x7b expected: " ++ toString expected ++
      ", actual: " ++ toString actual ++ " \x7d")
  | alreadyExists id => some ("AlreadyExists(" ++ id.shown ++ ")")
  | unavailable _ => none
  | decode cause => some (shownText "Decode" (cause.text DecodeFault.message))
  | keyDecode index cause => some (shownAt "KeyDecode" index (keyReason cause))
  | derivation index cause => some (shownAt "Derivation" index (derivationReason cause))
  | encode text => some (shownText "Encode" text)
  | invalidKey cause => some (shownText "InvalidKey" (cause.text KeyFault.message))
  | derivationFailed cause => some (shownText "DerivationFailed" (cause.text IdentityFault.message))
  | system _ => none

end Error
end Keyring
