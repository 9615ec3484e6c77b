/-!
SHA-256 of a byte string. The message is padded to whole blocks of sixteen big-endian words, each
block is mixed into eight chaining words over sixty-four rounds, and the final words are the
digest. A digest holds exactly thirty-two bytes by its type.
-/

namespace NamedData

/-- Thirty-two bytes, the width of a SHA-256 digest. -/
structure Digest where
  bytes : List UInt8
  length_bytes : bytes.length = 32
deriving DecidableEq

namespace Sha256

/-- The eight chaining words, also used as the working variables of the rounds. -/
structure Words where
  a : UInt32
  b : UInt32
  c : UInt32
  d : UInt32
  e : UInt32
  f : UInt32
  g : UInt32
  h : UInt32

/-- The first thirty-two bits of the fractional parts of the square roots of the first primes. -/
def initialWords : Words where
  a := 0x6a09e667
  b := 0xbb67ae85
  c := 0x3c6ef372
  d := 0xa54ff53a
  e := 0x510e527f
  f := 0x9b05688c
  g := 0x1f83d9ab
  h := 0x5be0cd19

/-- The round constants, from the cube roots of the first sixty-four primes. -/
def roundConstants : List UInt32 := [
  0x428a2f98, 0x71374491, 0xb5c0fbcf, 0xe9b5dba5, 0x3956c25b, 0x59f111f1, 0x923f82a4, 0xab1c5ed5,
  0xd807aa98, 0x12835b01, 0x243185be, 0x550c7dc3, 0x72be5d74, 0x80deb1fe, 0x9bdc06a7, 0xc19bf174,
  0xe49b69c1, 0xefbe4786, 0x0fc19dc6, 0x240ca1cc, 0x2de92c6f, 0x4a7484aa, 0x5cb0a9dc, 0x76f988da,
  0x983e5152, 0xa831c66d, 0xb00327c8, 0xbf597fc7, 0xc6e00bf3, 0xd5a79147, 0x06ca6351, 0x14292967,
  0x27b70a85, 0x2e1b2138, 0x4d2c6dfc, 0x53380d13, 0x650a7354, 0x766a0abb, 0x81c2c92e, 0x92722c85,
  0xa2bfe8a1, 0xa81a664b, 0xc24b8b70, 0xc76c51a3, 0xd192e819, 0xd6990624, 0xf40e3585, 0x106aa070,
  0x19a4c116, 0x1e376c08, 0x2748774c, 0x34b0bcb5, 0x391c0cb3, 0x4ed8aa4a, 0x5b9cca4f, 0x682e6ff3,
  0x748f82ee, 0x78a5636f, 0x84c87814, 0x8cc70208, 0x90befffa, 0xa4506ceb, 0xbef9a3f7, 0xc67178f2]

/-- Rotation to the right by a count below thirty-two. -/
def rotate (w : UInt32) (count : UInt32) : UInt32 :=
  (w >>> count) ||| (w <<< (32 - count))

/-- The sixteen words of the schedule window moved on by one word. -/
def advanceWindow (window : List UInt32) : List UInt32 :=
  match window with
  | w0 :: w1 :: rest =>
    let w9 := rest.getD 7 0
    let w14 := rest.getD 12 0
    let s0 := rotate w1 7 ^^^ rotate w1 18 ^^^ (w1 >>> 3)
    let s1 := rotate w14 17 ^^^ rotate w14 19 ^^^ (w14 >>> 10)
    w1 :: rest ++ [w0 + s0 + w9 + s1]
  | _ => window

def round (v : Words) (constant word : UInt32) : Words :=
  let s1 := rotate v.e 6 ^^^ rotate v.e 11 ^^^ rotate v.e 25
  let choice := (v.e &&& v.f) ^^^ (~~~v.e &&& v.g)
  let t1 := v.h + s1 + choice + constant + word
  let s0 := rotate v.a 2 ^^^ rotate v.a 13 ^^^ rotate v.a 22
  let majority := (v.a &&& v.b) ^^^ (v.a &&& v.c) ^^^ (v.b &&& v.c)
  { a := t1 + (s0 + majority), b := v.a, c := v.b, d := v.c
    e := v.d + t1, f := v.e, g := v.f, h := v.g }

/-- The rounds for the given constants, the window giving one word a round. -/
def rounds (v : Words) (window : List UInt32) : List UInt32 → Words
  | [] => v
  | k :: ks => rounds (round v k (window.headD 0)) (advanceWindow window) ks

def compress (v : Words) (block : List UInt32) : Words :=
  let r := rounds v block roundConstants
  { a := v.a + r.a, b := v.b + r.b, c := v.c + r.c, d := v.d + r.d
    e := v.e + r.e, f := v.f + r.f, g := v.g + r.g, h := v.h + r.h }

/-- The four bytes of a word, most significant first. -/
def wordBytes (w : UInt32) : List UInt8 :=
  [(w >>> 24).toUInt8, (w >>> 16).toUInt8, (w >>> 8).toUInt8, w.toUInt8]

/-- Big-endian words of a byte string; fewer than four bytes at its end are left out. -/
def wordsOfBytes : List UInt8 → List UInt32
  | b0 :: b1 :: b2 :: b3 :: rest =>
    ((b0.toUInt32 <<< 24) ||| (b1.toUInt32 <<< 16) ||| (b2.toUInt32 <<< 8) ||| b3.toUInt32)
      :: wordsOfBytes rest
  | _ => []

/-- The message, a one bit, the least number of zeros, and the bit length in eight bytes. -/
def pad (message : List UInt8) : List UInt8 :=
  let bits := (8 * message.length).toUInt64
  let zeros : List UInt8 := List.replicate ((55 + 64 - message.length % 64) % 64) 0
  message ++ 0x80 :: zeros
    ++ wordBytes (bits >>> 32).toUInt32 ++ wordBytes bits.toUInt32

/-- Mixes the given number of blocks from the front of a word list. -/
def absorbBlocks (v : Words) : Nat → List UInt32 → Words
  | 0, _ => v
  | n + 1, words => absorbBlocks (compress v (words.take 16)) n (words.drop 16)

def Words.digest (v : Words) : Digest where
  bytes := wordBytes v.a ++ wordBytes v.b ++ wordBytes v.c ++ wordBytes v.d
    ++ wordBytes v.e ++ wordBytes v.f ++ wordBytes v.g ++ wordBytes v.h
  length_bytes := rfl

def digest (message : List UInt8) : Digest :=
  let words := wordsOfBytes (pad message)
  (absorbBlocks initialWords (words.length / 16) words).digest

/-- A digest in the making: the bytes taken in since the last start. -/
structure Stream where
  absorbed : List UInt8 := []
deriving DecidableEq

namespace Stream

def absorb (s : Stream) (bytes : List UInt8) : Stream :=
  { absorbed := s.absorbed ++ bytes }

def restart (_ : Stream) : Stream :=
  {}

/-- The digest of everything taken in, and a stream that starts over. -/
def finish (s : Stream) : Digest × Stream :=
  (digest s.absorbed, {})

end Stream

end Sha256

end NamedData
