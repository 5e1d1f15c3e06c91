/-!
# SHA-256

The digest that places a node on the circle when nobody chose its key. A
message is padded to whole blocks of 64 bytes; each block is expanded to a
schedule of 64 words, and 64 rounds fold the schedule into the chaining value.

The round constants and the starting value are the first 32 bits of the
fractional parts of the cube and square roots of the first primes, as the
standard lists them.

## Main definitions

* `Digest.sha256`: The 32 bytes of a message's digest.
* `Digest.leadingWord`: The first eight bytes of the digest as one word.
-/

namespace RingOverlay.Digest

/-- One constant for each round. -/
def roundConstants : List UInt32 :=
  [0x428a2f98, 0x71374491, 0xb5c0fbcf, 0xe9b5dba5, 0x3956c25b, 0x59f111f1, 0x923f82a4, 0xab1c5ed5,
   0xd807aa98, 0x12835b01, 0x243185be, 0x550c7dc3, 0x72be5d74, 0x80deb1fe, 0x9bdc06a7, 0xc19bf174,
   0xe49b69c1, 0xefbe4786, 0x0fc19dc6, 0x240ca1cc, 0x2de92c6f, 0x4a7484aa, 0x5cb0a9dc, 0x76f988da,
   0x983e5152, 0xa831c66d, 0xb00327c8, 0xbf597fc7, 0xc6e00bf3, 0xd5a79147, 0x06ca6351, 0x14292967,
   0x27b70a85, 0x2e1b2138, 0x4d2c6dfc, 0x53380d13, 0x650a7354, 0x766a0abb, 0x81c2c92e, 0x92722c85,
   0xa2bfe8a1, 0xa81a664b, 0xc24b8b70, 0xc76c51a3, 0xd192e819, 0xd6990624, 0xf40e3585, 0x106aa070,
   0x19a4c116, 0x1e376c08, 0x2748774c, 0x34b0bcb5, 0x391c0cb3, 0x4ed8aa4a, 0x5b9cca4f, 0x682e6ff3,
   0x748f82ee, 0x78a5636f, 0x84c87814, 0x8cc70208, 0x90befffa, 0xa4506ceb, 0xbef9a3f7, 0xc67178f2]

/-- The eight words that a digest is folded into. -/
structure Chain where
  a : UInt32
  b : UInt32
  c : UInt32
  d : UInt32
  e : UInt32
  f : UInt32
  g : UInt32
  h : UInt32
deriving DecidableEq, Repr

/-- The chaining value before the first block. -/
def Chain.initial : Chain :=
  ⟨0x6a09e667, 0xbb67ae85, 0x3c6ef372, 0xa54ff53a, 0x510e527f, 0x9b05688c, 0x1f83d9ab, 0x5be0cd19⟩

/-- Word by word addition of two chaining values. -/
def Chain.add (x y : Chain) : Chain :=
  ⟨x.a + y.a, x.b + y.b, x.c + y.c, x.d + y.d, x.e + y.e, x.f + y.f, x.g + y.g, x.h + y.h⟩

/-- Turn a word right by `n` places, for `n` between 1 and 31. -/
def rotate (x : UInt32) (n : UInt32) : UInt32 :=
  (x >>> n) ||| (x <<< (32 - n))

/-- One round: the words move down one place and two of them take up the
    schedule word and the round's constant. -/
def Chain.round (s : Chain) (constant word : UInt32) : Chain :=
  let big1 := rotate s.e 6 ^^^ rotate s.e 11 ^^^ rotate s.e 25
  let choice := (s.e &&& s.f) ^^^ ((~~~ s.e) &&& s.g)
  let t1 := s.h + big1 + choice + constant + word
  let big0 := rotate s.a 2 ^^^ rotate s.a 13 ^^^ rotate s.a 22
  let majority := (s.a &&& s.b) ^^^ (s.a &&& s.c) ^^^ (s.b &&& s.c)
  ⟨t1 + (big0 + majority), s.a, s.b, s.c, s.d + t1, s.e, s.f, s.g⟩

/-- Four bytes as a word, the first the most significant. -/
def word (a b c d : UInt8) : UInt32 :=
  (a.toUInt32 <<< 24) ||| (b.toUInt32 <<< 16) ||| (c.toUInt32 <<< 8) ||| d.toUInt32

/-- The words of a byte string; fewer than four bytes at the end are left out. -/
def words : List UInt8 → List UInt32
  | a :: b :: c :: d :: rest => word a b c d :: words rest
  | _ => []

/-- Extend a schedule, newest word first, by `n` words. Each new word mixes
    the words 2, 7, 15 and 16 places before it. -/
def extend : Nat → List UInt32 → List UInt32
  | 0, newest => newest
  | n + 1, newest =>
    let back (k : Nat) : UInt32 := newest.getD (k - 1) 0
    let w2 := back 2
    let w15 := back 15
    let small1 := rotate w2 17 ^^^ rotate w2 19 ^^^ (w2 >>> 10)
    let small0 := rotate w15 7 ^^^ rotate w15 18 ^^^ (w15 >>> 3)
    extend n ((small1 + back 7 + small0 + back 16) :: newest)

/-- The 64 schedule words of a block. -/
def schedule (block : List UInt8) : List UInt32 :=
  (extend 48 (words block).reverse).reverse

/-- Fold one block into the chaining value. -/
def Chain.absorb (s : Chain) (block : List UInt8) : Chain :=
  let mixed := (roundConstants.zip (schedule block)).foldl (fun t kw => t.round kw.1 kw.2) s
  s.add mixed

/-- The four bytes of a word, the most significant first. -/
def bytesOfWord (x : UInt32) : List UInt8 :=
  [(x >>> 24).toUInt8, (x >>> 16).toUInt8, (x >>> 8).toUInt8, x.toUInt8]

/-- Pad a message to whole blocks: one set bit, then clear bits, then the
    message's length in bits as eight bytes. -/
def pad (message : List UInt8) : List UInt8 :=
  let bits := UInt64.ofNat (8 * message.length)
  let fill := (119 - message.length % 64) % 64
  message ++ (0x80 : UInt8) :: List.replicate fill (0 : UInt8)
    ++ bytesOfWord (bits >>> 32).toUInt32 ++ bytesOfWord bits.toUInt32

/-- Fold `n` blocks of 64 bytes. -/
def absorbBlocks : Nat → Chain → List UInt8 → Chain
  | 0, s, _ => s
  | n + 1, s, bytes => absorbBlocks n (s.absorb (bytes.take 64)) (bytes.drop 64)

/-- The digest of a message. -/
def sha256 (message : List UInt8) : List UInt8 :=
  let padded := pad message
  let s := absorbBlocks (padded.length / 64) Chain.initial padded
  [s.a, s.b, s.c, s.d, s.e, s.f, s.g, s.h].flatMap bytesOfWord

/-- The first eight bytes of the digest, the first the most significant. -/
def leadingWord (message : List UInt8) : UInt64 :=
  (sha256 message).take 8 |>.foldl (fun acc b => (acc <<< 8) ||| b.toUInt64) 0

end RingOverlay.Digest
