/-! The bytes of a text, the text of bytes, and which bytes and characters are blank. -/
namespace Keyring

abbrev Bytes := List UInt8

namespace Text

/-- The UTF-8 form of a text. -/
def utf8 (text : List Char) : Bytes := text.flatMap String.utf8EncodeChar

@[simp] theorem utf8_nil : utf8 [] = [] := rfl

@[simp] theorem utf8_append (s t : List Char) : utf8 (s ++ t) = utf8 s ++ utf8 t :=
  List.flatMap_append

/-- The character of a code point. -/
def charOf? (n : Nat) : Option Char :=
  if h : n.isValidChar then some (Char.ofNatAux n h) else none

/-- How many bytes a character has that begins with this one. No character begins with a byte of which
this is zero. -/
def width (b : UInt8) : Nat :=
  if b < 0x80 then 1
  else if 0xc0 ≤ b ∧ b < 0xe0 then 2
  else if 0xe0 ≤ b ∧ b < 0xf0 then 3
  else if 0xf0 ≤ b ∧ b < 0xf8 then 4
  else 0

/-- The longest text that the bytes begin with, and whether it is all of them. `need` bytes complete
the character that was begun; its bits so far are `value`, and it must reach `least`, since a smaller
value has a shorter form. -/
def decodeFrom : (need value least : Nat) → Bytes → List Char × Bool
  | need,_,_,[] => ([],need == 0)
  | 0,_,_,b :: r =>
    if b < 0x80 then
      let t := decodeFrom 0 0 0 r
      (Char.ofNat b.toNat :: t.1,t.2)
    else if 0xc0 ≤ b ∧ b < 0xe0 then decodeFrom 1 (b.toNat - 0xc0) 0x80 r
    else if 0xe0 ≤ b ∧ b < 0xf0 then decodeFrom 2 (b.toNat - 0xe0) 0x800 r
    else if 0xf0 ≤ b ∧ b < 0xf8 then decodeFrom 3 (b.toNat - 0xf0) 0x10000 r
    else ([],false)
  | need+1,value,least,b :: r =>
    if 0x80 ≤ b ∧ b < 0xc0 then
      let value := value*64 + (b.toNat - 0x80)
      if need = 0 then
        match if least ≤ value then charOf? value else none with
        | some c =>
          let t := decodeFrom 0 0 0 r
          (c :: t.1,t.2)
        | none => ([],false)
      else decodeFrom need value least r
    else ([],false)

def decodeUtf8 (bytes : Bytes) : List Char × Bool := decodeFrom 0 0 0 bytes

/-- The text of the bytes, if they are one. -/
def ofUtf8? (bytes : Bytes) : Option String :=
  let t := decodeUtf8 bytes
  if t.2 then some (String.ofList t.1) else none

/-- The ASCII space, tab, line feed, form feed and carriage return. -/
def isBlankByte (b : UInt8) : Bool :=
  b == 0x20 || b == 0x09 || b == 0x0a || b == 0x0c || b == 0x0d

/-- The characters of the Unicode property White_Space. -/
def isBlank (c : Char) : Bool :=
  let n := c.toNat
  (0x09 ≤ n && n ≤ 0x0d) || n == 0x20 || n == 0x85 || n == 0xa0 || n == 0x1680 ||
    (0x2000 ≤ n && n ≤ 0x200a) || n == 0x2028 || n == 0x2029 || n == 0x202f || n == 0x205f ||
    n == 0x3000

end Text
end Keyring
