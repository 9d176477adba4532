-- SHA-256 and the keyed tag over it, on lists of bytes. The digest is always
-- 32 bytes long.
import MqttBroker.Lib.Bytes

namespace Sha2

/-! ## Words -/

/-- The round constants. -/
def roundConstants : List Nat :=
  [0x428a2f98, 0x71374491, 0xb5c0fbcf, 0xe9b5dba5, 0x3956c25b, 0x59f111f1, 0x923f82a4, 0xab1c5ed5,
    0xd807aa98, 0x12835b01, 0x243185be, 0x550c7dc3, 0x72be5d74, 0x80deb1fe, 0x9bdc06a7, 0xc19bf174,
    0xe49b69c1, 0xefbe4786, 0x0fc19dc6, 0x240ca1cc, 0x2de92c6f, 0x4a7484aa, 0x5cb0a9dc, 0x76f988da,
    0x983e5152, 0xa831c66d, 0xb00327c8, 0xbf597fc7, 0xc6e00bf3, 0xd5a79147, 0x06ca6351, 0x14292967,
    0x27b70a85, 0x2e1b2138, 0x4d2c6dfc, 0x53380d13, 0x650a7354, 0x766a0abb, 0x81c2c92e, 0x92722c85,
    0xa2bfe8a1, 0xa81a664b, 0xc24b8b70, 0xc76c51a3, 0xd192e819, 0xd6990624, 0xf40e3585, 0x106aa070,
    0x19a4c116, 0x1e376c08, 0x2748774c, 0x34b0bcb5, 0x391c0cb3, 0x4ed8aa4a, 0x5b9cca4f, 0x682e6ff3,
    0x748f82ee, 0x78a5636f, 0x84c87814, 0x8cc70208, 0x90befffa, 0xa4506ceb, 0xbef9a3f7, 0xc67178f2]

/-- The last 32 bits of a number. -/
def low (n : Nat) : Nat := n % 2 ^ 32

def rotr (x n : Nat) : Nat := (x >>> n) ||| low (x <<< (32 - n))

/-- The words of a block, each of four bytes. -/
def words : List UInt8 → List Nat
  | a :: b :: c :: d :: rest =>
    ByteCodec.ofBe [a, b, c, d] :: words rest
  | _ => []

/-- The first words of the message schedule, from the sixteen that come next. -/
def schedule : Nat → List Nat → List Nat
  | n + 1, w :: rest =>
    let w1 := rest.getD 0 0
    let w9 := rest.getD 8 0
    let w14 := rest.getD 13 0
    let s0 := rotr w1 7 ^^^ rotr w1 18 ^^^ (w1 >>> 3)
    let s1 := rotr w14 17 ^^^ rotr w14 19 ^^^ (w14 >>> 10)
    w :: schedule n (rest ++ [low (w + s0 + w9 + s1)])
  | _, _ => []

/-! ## Blocks -/

structure Hash where
  a : Nat
  b : Nat
  c : Nat
  d : Nat
  e : Nat
  f : Nat
  g : Nat
  h : Nat

def initial : Hash :=
  ⟨0x6a09e667, 0xbb67ae85, 0x3c6ef372, 0xa54ff53a, 0x510e527f, 0x9b05688c, 0x1f83d9ab, 0x5be0cd19⟩

def round (s : Hash) (kw : Nat × Nat) : Hash :=
  let s1 := rotr s.e 6 ^^^ rotr s.e 11 ^^^ rotr s.e 25
  let choice := (s.e &&& s.f) ^^^ ((2 ^ 32 - 1 - s.e) &&& s.g)
  let t := low (s.h + s1 + choice + kw.1 + kw.2)
  let s0 := rotr s.a 2 ^^^ rotr s.a 13 ^^^ rotr s.a 22
  let majority := (s.a &&& s.b) ^^^ (s.a &&& s.c) ^^^ (s.b &&& s.c)
  ⟨low (t + (s0 + majority)), s.a, s.b, s.c, low (s.d + t), s.e, s.f, s.g⟩

def compress (s : Hash) (block : List UInt8) : Hash :=
  let t := (roundConstants.zip (schedule 64 (words block))).foldl round s
  ⟨low (s.a + t.a), low (s.b + t.b), low (s.c + t.c), low (s.d + t.d), low (s.e + t.e),
    low (s.f + t.f), low (s.g + t.g), low (s.h + t.h)⟩

/-- The message with its length at the end, in whole blocks. -/
def padded (m : List UInt8) : List UInt8 :=
  m ++ 0x80 :: List.replicate ((119 - m.length % 64) % 64) 0 ++ ByteCodec.toBe 8 (8 * m.length)

def compressAll : Nat → List UInt8 → Hash → Hash
  | 0, _, s => s
  | n + 1, m, s => compressAll n (m.drop 64) (compress s (m.take 64))

def digest (m : List UInt8) : List UInt8 :=
  let s := compressAll ((padded m).length / 64) (padded m) initial
  [s.a, s.b, s.c, s.d, s.e, s.f, s.g, s.h].flatMap (ByteCodec.toBe 4)

/-- The keyed tag of a message. -/
def hmac (key m : List UInt8) : List UInt8 :=
  let key := if 64 < key.length then digest key else key
  let key := key ++ List.replicate (64 - key.length) 0
  digest (key.map (· ^^^ 0x5c) ++ digest (key.map (· ^^^ 0x36) ++ m))

@[simp] theorem length_digest (m : List UInt8) : (digest m).length = 32 := by
  simp [digest]

@[simp] theorem length_hmac (key m : List UInt8) : (hmac key m).length = 32 := by
  simp [hmac]

example : digest (ByteCodec.stringBytes "abc") =
    [0xba, 0x78, 0x16, 0xbf, 0x8f, 0x01, 0xcf, 0xea, 0x41, 0x41, 0x40, 0xde, 0x5d, 0xae, 0x22, 0x23,
      0xb0, 0x03, 0x61, 0xa3, 0x96, 0x17, 0x7a, 0x9c, 0xb4, 0x10, 0xff, 0x61, 0xf2, 0x00, 0x15,
      0xad] := by decide +kernel

end Sha2
