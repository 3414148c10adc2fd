import Keyring.Hex

/-! Texts in JSON: what stands between two quotation marks. -/
namespace Keyring.Json

/-- The characters with a short escape, behind its letter. -/
def escapes : List (Char × Char) :=
  [('"','"'),('\\','\\'),('/','/'),('b','\x08'),('f','\x0c'),('n','\n'),('r','\r'),('t','\t')]

/-- The number of four digits. -/
def unit? (a b c d : Char) : Option Nat := do
  let a ← Hex.charValue? a
  let b ← Hex.charValue? b
  let c ← Hex.charValue? c
  let d ← Hex.charValue? d
  some (((a*16 + b)*16 + c)*16 + d)

/-- The text up to the next quotation mark, and the characters behind that. Characters of the upper
planes are escaped as a pair; half a pair is wrong, and so is a control character. -/
def readText : List Char → Option (List Char × List Char)
  | [] => none
  | c :: r =>
    if c = '"' then some ([],r)
    else if c = '\\' then
      match r with
      | [] => none
      | 'u' :: a :: b :: c :: d :: r => do
        let code ← unit? a b c d
        if 0xd800 ≤ code ∧ code < 0xdc00 then
          match r with
          | '\\' :: 'u' :: a :: b :: c :: d :: r => do
            let low ← unit? a b c d
            if 0xdc00 ≤ low ∧ low < 0xe000 then
              let x ← Text.charOf? (0x10000 + (code-0xd800)*0x400 + (low-0xdc00))
              let (text,r) ← readText r
              some (x :: text,r)
            else none
          | _ => none
        else
          let x ← Text.charOf? code
          let (text,r) ← readText r
          some (x :: text,r)
      | e :: r => do
        let x ← escapes.lookup e
        let (text,r) ← readText r
        some (x :: text,r)
    else if c.toNat < 0x20 then none
    else do
      let (text,r) ← readText r
      some (c :: text,r)

/-- The characters behind a text that is not wanted. Only the digits of its escapes are looked at. -/
def skipText : List Char → Option (List Char)
  | [] => none
  | c :: r =>
    if c = '"' then some r
    else if c = '\\' then
      match r with
      | [] => none
      | 'u' :: a :: b :: c :: d :: r => if (unit? a b c d).isSome then skipText r else none
      | e :: r => if (escapes.lookup e).isSome then skipText r else none
    else if c.toNat < 0x20 then none
    else skipText r

/-- How a character is written: quotation mark, backslash and control characters are escaped. -/
def writeChar (c : Char) : List Char :=
  if c = '"' then ['\\','"']
  else if c = '\\' then ['\\','\\']
  else if c = '\x08' then ['\\','b']
  else if c = '\x0c' then ['\\','f']
  else if c = '\n' then ['\\','n']
  else if c = '\r' then ['\\','r']
  else if c = '\t' then ['\\','t']
  else if c.toNat < 0x20 then
    ['\\','u','0','0',Hex.digit (c.toNat/16),Hex.digit (c.toNat%16)]
  else [c]

def writeText (text : List Char) : List Char := '"' :: text.flatMap writeChar ++ ['"']

end Keyring.Json
