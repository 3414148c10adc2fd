import Keyring.Text.Quoted
import Keyring.Text.Utf8

/-! Bytes written as hexadecimal digits. Digits of either case are read, lowercase ones written. -/
namespace Keyring.Hex

/-- Why a text is not the hexadecimal form of any bytes. -/
inductive Fault where
  | oddLength
  | badDigit (byte : UInt8) (position : Nat)
  deriving DecidableEq

/-- A stray byte is shown as the character with its code. -/
def Fault.message : Fault → String
  | .oddLength => "Odd number of digits"
  | .badDigit b i =>
    "Invalid character " ++ Text.quotedChar (Char.ofNat b.toNat) ++ " at position " ++ toString i

def digit (n : Nat) : Char :=
  if n < 10 then Char.ofNat (48+n) else Char.ofNat (87+n)

def encodeChars : Bytes → List Char
  | [] => []
  | b :: r => digit (b.toNat/16) :: digit (b.toNat%16) :: encodeChars r

def encode (bytes : Bytes) : String := String.ofList (encodeChars bytes)

/-- The value of a byte that is a digit in ASCII. -/
def value? (b : UInt8) : Option Nat :=
  if 48 ≤ b ∧ b ≤ 57 then some (b.toNat - 48)
  else if 97 ≤ b ∧ b ≤ 102 then some (b.toNat - 87)
  else if 65 ≤ b ∧ b ≤ 70 then some (b.toNat - 55)
  else none

/-- The value of a digit. -/
def charValue? (c : Char) : Option Nat :=
  if c.toNat < 128 then value? (UInt8.ofNat c.toNat) else none

/-- Reads pairs of digits, the first of them at position `i` of the text. -/
def decodePairs (i : Nat) : Bytes → Except Fault Bytes
  | high :: low :: r =>
    match value? high, value? low with
    | none,_ => .error (.badDigit high i)
    | some _,none => .error (.badDigit low (i+1))
    | some h,some l => (decodePairs (i+2) r).map (UInt8.ofNat (16*h+l) :: ·)
  | _ => .ok []

/-- A text of an odd number of bytes is refused before its digits are looked at. -/
def decode (text : Bytes) : Except Fault Bytes :=
  if text.length%2 = 1 then .error .oddLength else decodePairs 0 text

def decodeText (text : String) : Except Fault Bytes := decode (Text.utf8 text.toList)

end Keyring.Hex
