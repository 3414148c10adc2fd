import Keyring.Text.Utf8

/-! The hash function SHA-256. -/
namespace Keyring.Sha256

/-- The eight words that are carried from block to block. -/
structure State where
  (a b c d e f g h : UInt32)

def initial : State :=
  ⟨0x6a09e667,0xbb67ae85,0x3c6ef372,0xa54ff53a,0x510e527f,0x9b05688c,0x1f83d9ab,0x5be0cd19⟩

def roundConstants : List UInt32 := [
  0x428a2f98,0x71374491,0xb5c0fbcf,0xe9b5dba5,0x3956c25b,0x59f111f1,0x923f82a4,0xab1c5ed5,
  0xd807aa98,0x12835b01,0x243185be,0x550c7dc3,0x72be5d74,0x80deb1fe,0x9bdc06a7,0xc19bf174,
  0xe49b69c1,0xefbe4786,0x0fc19dc6,0x240ca1cc,0x2de92c6f,0x4a7484aa,0x5cb0a9dc,0x76f988da,
  0x983e5152,0xa831c66d,0xb00327c8,0xbf597fc7,0xc6e00bf3,0xd5a79147,0x06ca6351,0x14292967,
  0x27b70a85,0x2e1b2138,0x4d2c6dfc,0x53380d13,0x650a7354,0x766a0abb,0x81c2c92e,0x92722c85,
  0xa2bfe8a1,0xa81a664b,0xc24b8b70,0xc76c51a3,0xd192e819,0xd6990624,0xf40e3585,0x106aa070,
  0x19a4c116,0x1e376c08,0x2748774c,0x34b0bcb5,0x391c0cb3,0x4ed8aa4a,0x5b9cca4f,0x682e6ff3,
  0x748f82ee,0x78a5636f,0x84c87814,0x8cc70208,0x90befffa,0xa4506ceb,0xbef9a3f7,0xc67178f2]

def rotate (x n : UInt32) : UInt32 := (x >>> n) ||| (x <<< (32-n))

/-- The next word of the schedule, from the earlier ones, latest first. -/
def nextWord (words : List UInt32) : UInt32 :=
  let s (x : UInt32) := rotate x 7 ^^^ rotate x 18 ^^^ (x >>> 3)
  let t (x : UInt32) := rotate x 17 ^^^ rotate x 19 ^^^ (x >>> 10)
  words.getD 15 0 + s (words.getD 14 0) + words.getD 6 0 + t (words.getD 1 0)

/-- `count` further words put before the words so far. -/
def extend : Nat → List UInt32 → List UInt32
  | 0,words => words
  | n+1,words => extend n (nextWord words :: words)

def wordsOf : Bytes → List UInt32
  | a :: b :: c :: d :: r =>
    ((a.toUInt32 <<< 24) ||| (b.toUInt32 <<< 16) ||| (c.toUInt32 <<< 8) ||| d.toUInt32) :: wordsOf r
  | _ => []

def bytesOf (w : UInt32) : Bytes :=
  [(w >>> 24).toUInt8,(w >>> 16).toUInt8,(w >>> 8).toUInt8,w.toUInt8]

def step (s : State) (k w : UInt32) : State :=
  let sum1 := rotate s.e 6 ^^^ rotate s.e 11 ^^^ rotate s.e 25
  let choice := (s.e &&& s.f) ^^^ (~~~s.e &&& s.g)
  let t := s.h + sum1 + choice + k + w
  let sum0 := rotate s.a 2 ^^^ rotate s.a 13 ^^^ rotate s.a 22
  let majority := (s.a &&& s.b) ^^^ (s.a &&& s.c) ^^^ (s.b &&& s.c)
  ⟨t + sum0 + majority,s.a,s.b,s.c,s.d + t,s.e,s.f,s.g⟩

/-- Takes in one block of 64 bytes. -/
def absorb (s : State) (block : Bytes) : State :=
  let words := (extend 48 (wordsOf block).reverse).reverse
  let t := (roundConstants.zip words).foldl (fun t kw => step t kw.1 kw.2) s
  ⟨s.a+t.a,s.b+t.b,s.c+t.c,s.d+t.d,s.e+t.e,s.f+t.f,s.g+t.g,s.h+t.h⟩

/-- The message, a set bit, zeros up to eight bytes below a whole block, and the length in bits. -/
def padded (message : Bytes) : Bytes :=
  let n := message.length
  let bits := 8*n
  message ++ 0x80 :: List.replicate ((119 - n%64)%64) 0 ++
    bytesOf (UInt32.ofNat (bits / Nat.pow 2 32)) ++ bytesOf (UInt32.ofNat bits)

def absorbAll : Nat → State → Bytes → State
  | 0,s,_ => s
  | n+1,s,bytes => absorbAll n (absorb s (bytes.take 64)) (bytes.drop 64)

def digest (message : Bytes) : Bytes :=
  let bytes := padded message
  let s := absorbAll (bytes.length/64) initial bytes
  bytesOf s.a ++ bytesOf s.b ++ bytesOf s.c ++ bytesOf s.d ++
    bytesOf s.e ++ bytesOf s.f ++ bytesOf s.g ++ bytesOf s.h

@[simp] theorem length_digest (message : Bytes) : (digest message).length = 32 := by
  simp [digest,bytesOf]

end Keyring.Sha256
