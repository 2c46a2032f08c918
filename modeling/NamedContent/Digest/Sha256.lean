import NamedContent.Bytes.BigEndian
import NamedContent.Bytes.Chunks
import NamedContent.Digest.Basic

/-! The SHA-256 hash function: padding, message schedule and compression. -/

set_option autoImplicit false

namespace NamedContent

namespace Sha256

structure Words where
  a : UInt32
  b : UInt32
  c : UInt32
  d : UInt32
  e : UInt32
  f : UInt32
  g : UInt32
  h : UInt32

/-- The first 32 bits of the fractional parts of the square roots of the first
eight primes. -/
def initial : Words :=
  ⟨0x6a09e667, 0xbb67ae85, 0x3c6ef372, 0xa54ff53a, 0x510e527f, 0x9b05688c, 0x1f83d9ab, 0x5be0cd19⟩

/-- The first 32 bits of the fractional parts of the cube roots of the first
sixty-four primes. -/
def roundConstants : List UInt32 :=
  [0x428a2f98, 0x71374491, 0xb5c0fbcf, 0xe9b5dba5, 0x3956c25b, 0x59f111f1, 0x923f82a4, 0xab1c5ed5,
   0xd807aa98, 0x12835b01, 0x243185be, 0x550c7dc3, 0x72be5d74, 0x80deb1fe, 0x9bdc06a7, 0xc19bf174,
   0xe49b69c1, 0xefbe4786, 0x0fc19dc6, 0x240ca1cc, 0x2de92c6f, 0x4a7484aa, 0x5cb0a9dc, 0x76f988da,
   0x983e5152, 0xa831c66d, 0xb00327c8, 0xbf597fc7, 0xc6e00bf3, 0xd5a79147, 0x06ca6351, 0x14292967,
   0x27b70a85, 0x2e1b2138, 0x4d2c6dfc, 0x53380d13, 0x650a7354, 0x766a0abb, 0x81c2c92e, 0x92722c85,
   0xa2bfe8a1, 0xa81a664b, 0xc24b8b70, 0xc76c51a3, 0xd192e819, 0xd6990624, 0xf40e3585, 0x106aa070,
   0x19a4c116, 0x1e376c08, 0x2748774c, 0x34b0bcb5, 0x391c0cb3, 0x4ed8aa4a, 0x5b9cca4f, 0x682e6ff3,
   0x748f82ee, 0x78a5636f, 0x84c87814, 0x8cc70208, 0x90befffa, 0xa4506ceb, 0xbef9a3f7, 0xc67178f2]

def rotateRight (word amount : UInt32) : UInt32 := (word >>> amount) ||| (word <<< (32 - amount))

/-- The four-term recurrence for the word after the given ones, latest first. -/
def nextWord (recent : List UInt32) : UInt32 :=
  let w (back : Nat) : UInt32 := recent.getD (back - 1) 0
  let early := rotateRight (w 15) 7 ^^^ rotateRight (w 15) 18 ^^^ (w 15 >>> 3)
  let late := rotateRight (w 2) 17 ^^^ rotateRight (w 2) 19 ^^^ (w 2 >>> 10)
  w 16 + early + w 7 + late

def extend : Nat → List UInt32 → List UInt32
  | 0, recent => recent
  | count + 1, recent => extend count (nextWord recent :: recent)

def schedule (block : List UInt32) : List UInt32 := (extend 48 block.reverse).reverse

def round (words : Words) (constant word : UInt32) : Words :=
  let ⟨a, b, c, d, e, f, g, h⟩ := words
  let mixE := rotateRight e 6 ^^^ rotateRight e 11 ^^^ rotateRight e 25
  let choice := (e &&& f) ^^^ ((~~~ e) &&& g)
  let first := h + mixE + choice + constant + word
  let mixA := rotateRight a 2 ^^^ rotateRight a 13 ^^^ rotateRight a 22
  let majority := (a &&& b) ^^^ (a &&& c) ^^^ (b &&& c)
  ⟨first + mixA + majority, a, b, c, d + first, e, f, g⟩

def Words.add (left right : Words) : Words :=
  ⟨left.a + right.a, left.b + right.b, left.c + right.c, left.d + right.d,
   left.e + right.e, left.f + right.f, left.g + right.g, left.h + right.h⟩

def wordsOfBytes : List UInt8 → List UInt32
  | first :: second :: third :: fourth :: rest =>
    (first.toUInt32 <<< 24 ||| second.toUInt32 <<< 16 ||| third.toUInt32 <<< 8 ||| fourth.toUInt32)
      :: wordsOfBytes rest
  | _ => []

def compress (words : Words) (block : List UInt32) : Words :=
  let rounds := roundConstants.zip (schedule block)
  words.add (rounds.foldl (fun words (constant, word) => round words constant word) words)

/-- A one bit, zero bits up to a whole number of blocks, and the length in bits. -/
def pad (message : List UInt8) : List UInt8 :=
  message ++ 0x80 :: (List.replicate ((119 - message.length % 64) % 64) 0
    ++ Bytes.bigEndian 8 (8 * message.length))

def Words.digest (words : Words) : Digest :=
  ⟨⟨([words.a, words.b, words.c, words.d, words.e, words.f, words.g, words.h].flatMap
      fun word => Bytes.bigEndian 4 word.toNat).toArray, by simp⟩⟩

def hash (message : List UInt8) : Digest :=
  ((chunks 16 (wordsOfBytes (pad message))).foldl compress initial).digest

end Sha256

end NamedContent
