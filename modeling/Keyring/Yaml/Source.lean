import Keyring.Text.Utf8
import Keyring.Yaml.Cursor

/-! The characters of a YAML text. Bytes are read in blocks; a block that holds an unreadable character
gives nothing, but one that breaks off within a character gives those before it. -/
namespace Keyring.Yaml

/-- A text as far as it can be read. -/
structure Source where
  chars : List Char
  margin : Margin

namespace Source

/-- The tab, the line breaks and everything visible, surrogates and the two last code points of the
basic plane left out. -/
def isReadable (c : Char) : Bool :=
  let n := c.toNat
  n == 0x09 || n == 0x0a || n == 0x0d || (0x20 ≤ n && n ≤ 0x7e) || n == 0x85 ||
    (0xa0 ≤ n && n ≤ 0xfffd) || 0x10000 ≤ n

/-- How many bytes are read at once. -/
def blockSize : Nat := 16384

/-- The characters of the blocks that are read before the `width` bytes which follow them. `done` and
`block` hold, latest first, the characters of the earlier blocks and of the current one, which fills
`used` bytes. -/
def wholeBlocks (width : Nat) (done block : List Char) (used : Nat) : List Char → List Char
  | [] => if used + width ≤ blockSize then done.reverse else (block ++ done).reverse
  | c :: r =>
    if used + c.utf8Size ≤ blockSize then wholeBlocks width done (c :: block) (used+c.utf8Size) r
    else wholeBlocks width (block ++ done) [c] c.utf8Size r

/-- Every way to end a line is read as a line feed, except the two separators of Unicode. -/
def unifyBreaks : List Char → List Char
  | [] => []
  | '\r' :: '\n' :: r => '\n' :: unifyBreaks r
  | c :: r => (if c = '\r' ∨ c = '\u0085' then '\n' else c) :: unifyBreaks r

/-- A text known to its end. -/
def whole (text : List Char) : Source := ⟨unifyBreaks text,[]⟩

/-- A text behind which nothing can be read. A line break of two characters counts as two where one
looks ahead. -/
def cut (text : List Char) : Source :=
  let chars := unifyBreaks text
  let needed (n : Nat) : Nat :=
    if text.length < n then chars.length+1 else (unifyBreaks (text.drop (text.length - n))).length
  ⟨chars,[0,needed 1,needed 2,needed 3,needed 4]⟩

def ofBytes (bytes : Bytes) : Source :=
  let text := (Text.decodeUtf8 bytes).1.takeWhile isReadable
  match bytes.drop (Text.utf8 text).length with
  | [] => whole text
  | b :: r =>
    if r.length+1 < Text.width b then cut text
    else cut (wholeBlocks (max 1 (Text.width b)) [] [] 0 text)

end Source
end Keyring.Yaml
