import Keyring.Hex
import Keyring.Yaml.Lexeme.Gap

/-! Tokens that stand on one line: anchors, aliases, tags and directives. Each reader takes the
characters after the token's first one, and yields those after its last. Octets above 127 of a tag stand
for the characters with their codes. -/
namespace Keyring.Yaml.Line

/-- The name of an anchor or an alias. -/
def name (rest : List Char) : Option (List Char × List Char) :=
  let text := rest.takeWhile isWord
  let r := rest.dropWhile isWord
  if text = [] then none
  else if atSpace r ∨ "?:,]\x7d%@`".toList.contains (r.headD ' ') then some (text,r)
  else none

/-- The characters that tags are made of; those in brackets allow three more. -/
def isUri (bracketed : Bool) (c : Char) : Bool :=
  isWord c || ";/?:@&=+$.!~*'()%".toList.contains c || (bracketed && (c == ',' || c == '[' || c == ']'))

def octet? : List Char → Option (Nat × List Char)
  | '%' :: a :: b :: r => do
    let high ← Hex.charValue? a
    let low ← Hex.charValue? b
    some (16*high + low,r)
  | _ => none

/-- The octets that follow one which begins a character of several octets. -/
def octets : (count : Nat) → List Char → Option (List Char × List Char)
  | 0,r => some ([],r)
  | n+1,r => do
    let (o,r) ← octet? r
    if 0x80 ≤ o ∧ o < 0xc0 then before [Char.ofNat o] (octets n r) else none

/-- One character written as octets. -/
def escapes (rest : List Char) : Option (List Char × List Char) := do
  let (o,r) ← octet? rest
  let count ←
    if o < 0x80 then some 0
    else if 0xc0 ≤ o ∧ o < 0xe0 then some 1
    else if 0xe0 ≤ o ∧ o < 0xf0 then some 2
    else if 0xf0 ≤ o ∧ o < 0xf8 then some 3
    else none
  before [Char.ofNat o] (octets count r)

def uriFrom (bracketed : Bool) : (fuel : Nat) → List Char → Option (List Char × List Char)
  | 0,r => some ([],r)
  | n+1,r => match r with
    | [] => some ([],[])
    | c :: r' =>
      if !isUri bracketed c then some ([],r)
      else if c = '%' then do
        let (x,r) ← escapes r
        before x (uriFrom bracketed n r)
      else before [c] (uriFrom bracketed n r')

/-- The characters of a tag, as far as they go. -/
def uri (bracketed : Bool) (rest : List Char) : Option (List Char × List Char) :=
  uriFrom bracketed (rest.length+1) rest

/-- The handle that a tag or a tag directive begins with, its exclamation marks included. -/
def handle : List Char → Option (List Char × List Char)
  | '!' :: r =>
    let text := r.takeWhile isWord
    let r := r.dropWhile isWord
    match r with
    | '!' :: r => some ('!' :: text ++ ['!'],r)
    | _ => some ('!' :: text,r)
  | _ => none

/-- A tag counts up to its first NUL. -/
def upToNul (text : List Char) : List Char := text.takeWhile (· != '\x00')

/-- A tag, from its exclamation mark on. -/
def tag (flow : Bool) (rest : List Char) : Option (Token × List Char) := do
  let (handle,suffix,r) ← match rest with
    | '!' :: '<' :: r => do
      let (text,r) ← uri true r
      match text,r with
      | _ :: _,'>' :: r => some ([],upToNul text,r)
      | _,_ => none
    | _ => do
      let (h,r) ← handle rest
      let (text,r) ← uri false r
      if h.length ≥ 2 ∧ h.getLast? = some '!' then
        if text = [] then none else some (h,upToNul text,r)
      else
        let text := upToNul (h.tail ++ text)
        if text = [] then some ([],['!'],r) else some (['!'],text,r)
  if atSpace r ∨ flow ∧ r.head? = some ',' then some (.tag handle suffix,r) else none

/-- A number of at most nine digits. -/
def number (rest : List Char) : Option (Nat × List Char) :=
  let text := rest.takeWhile Char.isDigit
  if text = [] ∨ text.length > 9 then none
  else some (text.foldl (fun n c => 10*n + (c.toNat - 48)) 0,rest.dropWhile Char.isDigit)

def version (rest : List Char) : Option (Token × List Char) := do
  let (major,r) ← number (rest.dropWhile isBlank)
  match r with
  | '.' :: r => do
    let (minor,r) ← number r
    some (.version major minor,r)
  | _ => none

def tagDirective (rest : List Char) : Option (Token × List Char) := do
  let (h,r) ← handle (rest.dropWhile isBlank)
  if h ≠ ['!'] ∧ (h.length < 2 ∨ h.getLast? ≠ some '!') then none
  else match r with
    | c :: _ =>
      if !isBlank c then none
      else do
        let (text,r) ← uri true (r.dropWhile isBlank)
        if text = [] ∨ !atSpace r then none else some (.tagDirective h (upToNul text),r)
    | [] => none

/-- A directive, after its percent sign, up to the end of its line. -/
def directive (rest : List Char) : Option (Token × List Char) := do
  let name := rest.takeWhile isWord
  let r := rest.dropWhile isWord
  if !atSpace r then none
  else do
    let (token,r) ←
      if name = "YAML".toList then version r
      else if name = "TAG".toList then tagDirective r
      else none
    let r := r.dropWhile isBlank
    let r := if r.head? = some '#' then r.dropWhile (!isBreak ·) else r
    match r with
    | [] => some (token,[])
    | c :: _ => if isBreak c then some (token,r) else none

end Keyring.Yaml.Line
