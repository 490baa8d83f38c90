import Eligibility.Number.Decimal
import Eligibility.Text.Quoted
/-!
# The 256-bit digest of a text

**Input.**  The bytes of a text, closed by a one bit, zeros up to a multiple of
512 bits less 64, and the bit length in 64 bits.

**Algorithm.**  Each block of sixteen words is stretched to sixty-four, and one
round for each of them stirs the eight words of the state; the state before the
block is then added back.

**Functions.**
* `digest`: the sixty-four hexadecimal digits.
-/

namespace Eligibility
namespace Digest

/-- The round constants: the fractional parts of the cube roots of the first primes. -/
def roundConstants : List UInt32 := [
  0x428a2f98, 0x71374491, 0xb5c0fbcf, 0xe9b5dba5, 0x3956c25b, 0x59f111f1, 0x923f82a4, 0xab1c5ed5,
  0xd807aa98, 0x12835b01, 0x243185be, 0x550c7dc3, 0x72be5d74, 0x80deb1fe, 0x9bdc06a7, 0xc19bf174,
  0xe49b69c1, 0xefbe4786, 0x0fc19dc6, 0x240ca1cc, 0x2de92c6f, 0x4a7484aa, 0x5cb0a9dc, 0x76f988da,
  0x983e5152, 0xa831c66d, 0xb00327c8, 0xbf597fc7, 0xc6e00bf3, 0xd5a79147, 0x06ca6351, 0x14292967,
  0x27b70a85, 0x2e1b2138, 0x4d2c6dfc, 0x53380d13, 0x650a7354, 0x766a0abb, 0x81c2c92e, 0x92722c85,
  0xa2bfe8a1, 0xa81a664b, 0xc24b8b70, 0xc76c51a3, 0xd192e819, 0xd6990624, 0xf40e3585, 0x106aa070,
  0x19a4c116, 0x1e376c08, 0x2748774c, 0x34b0bcb5, 0x391c0cb3, 0x4ed8aa4a, 0x5b9cca4f, 0x682e6ff3,
  0x748f82ee, 0x78a5636f, 0x84c87814, 0x8cc70208, 0x90befffa, 0xa4506ceb, 0xbef9a3f7, 0xc67178f2]

/-- The eight words of the state. -/
structure State where
  a : UInt32
  b : UInt32
  c : UInt32
  d : UInt32
  e : UInt32
  f : UInt32
  g : UInt32
  h : UInt32

/-- The state before the first block: the fractional parts of the square roots of the first primes. -/
def State.start : State :=
  ⟨0x6a09e667, 0xbb67ae85, 0x3c6ef372, 0xa54ff53a, 0x510e527f, 0x9b05688c, 0x1f83d9ab, 0x5be0cd19⟩

/-- A word turned to the right. -/
def turn (x : UInt32) (n : UInt32) : UInt32 := (x >>> n) ||| (x <<< (32 - n))

/-- The next word of the schedule, from the sixteen words before it. -/
def nextWord (w0 w1 w9 w14 : UInt32) : UInt32 :=
  let s0 := turn w1 7 ^^^ turn w1 18 ^^^ (w1 >>> 3)
  let s1 := turn w14 17 ^^^ turn w14 19 ^^^ (w14 >>> 10)
  w0 + s0 + w9 + s1

/-- One round, with the sum of its constant and its word. -/
def State.round (s : State) (kw : UInt32) : State :=
  let s1 := turn s.e 6 ^^^ turn s.e 11 ^^^ turn s.e 25
  let ch := (s.e &&& s.f) ^^^ ((~~~ s.e) &&& s.g)
  let t1 := s.h + s1 + ch + kw
  let s0 := turn s.a 2 ^^^ turn s.a 13 ^^^ turn s.a 22
  let maj := (s.a &&& s.b) ^^^ (s.a &&& s.c) ^^^ (s.b &&& s.c)
  ⟨t1 + (s0 + maj), s.a, s.b, s.c, s.d + t1, s.e, s.f, s.g⟩

/-- The rounds of a block: the window of sixteen words moves on by one word a round. -/
def rounds : List UInt32 → List UInt32 → State → State
  | [], _, s => s
  | k :: ks, w, s =>
      match w with
      | w0 :: rest =>
          let next := nextWord w0 (rest.getD 0 0) (rest.getD 8 0) (rest.getD 13 0)
          rounds ks (rest ++ [next]) (s.round (k + w0))
      | [] => s

/-- The state with another one added word by word. -/
def State.add (s t : State) : State :=
  ⟨s.a + t.a, s.b + t.b, s.c + t.c, s.d + t.d, s.e + t.e, s.f + t.f, s.g + t.g, s.h + t.h⟩

/-- The state after a block of sixteen words. -/
def State.block (s : State) (w : List UInt32) : State := s.add (rounds roundConstants w s)

/-- Words of four bytes, the most significant byte first. -/
def wordsOf : List UInt8 → List UInt32
  | a :: b :: c :: d :: r =>
      ((a.toUInt32 <<< 24) ||| (b.toUInt32 <<< 16) ||| (c.toUInt32 <<< 8) ||| d.toUInt32) :: wordsOf r
  | _ => []

/-- The state after `n` blocks taken from a list of words. -/
def absorb : Nat → List UInt32 → State → State
  | 0, _, s => s
  | n + 1, ws, s => absorb n (ws.drop 16) (s.block (ws.take 16))

/-- The bytes of a number below `2 ^ 64`, the most significant first. -/
def bytes8 (n : Nat) : List UInt8 :=
  [56, 48, 40, 32, 24, 16, 8, 0].map fun s => UInt8.ofNat (n / Nat.pow 2 s % 256)

/-- The bytes of a message with its padding. -/
def padded (bs : List UInt8) : List UInt8 :=
  bs ++ 0x80 :: (List.replicate ((119 - bs.length % 64) % 64) 0 ++ bytes8 (8 * bs.length))

/-- The eight hexadecimal digits of a word. -/
def wordText (w : UInt32) : List Char :=
  Text.hex4 (w.toNat / 65536) ++ Text.hex4 (w.toNat % 65536)

/-- The hexadecimal digits of a state. -/
def State.text (s : State) : List Char :=
  [s.a, s.b, s.c, s.d, s.e, s.f, s.g, s.h].flatMap wordText

/-- The digest of a text in hexadecimal digits. -/
def digest (s : String) : String :=
  let ws := wordsOf (padded s.toUTF8.toList)
  String.ofList (absorb (ws.length / 16) ws State.start).text

end Digest
end Eligibility
