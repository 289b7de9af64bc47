import ChainNode.Bytes

/-!
# SHA-512 (FIPS 180-4)

`sha512` maps any byte string to 64 bytes. The eighty rounds run along the list of round
constants, `absorb` along the words of the message. The words in hand are plain arguments, so
that a round allocates nothing.

* `wordsWith_eq`: a message is read as if its padding stood behind it.
* `length_sha512`: a digest has 64 bytes.
-/
namespace ChainNode.Sha512

/-- Fractional parts of the cube roots of the first eighty primes. -/
def constants : List UInt64 :=
  [0x428a2f98d728ae22, 0x7137449123ef65cd, 0xb5c0fbcfec4d3b2f, 0xe9b5dba58189dbbc,
   0x3956c25bf348b538, 0x59f111f1b605d019, 0x923f82a4af194f9b, 0xab1c5ed5da6d8118,
   0xd807aa98a3030242, 0x12835b0145706fbe, 0x243185be4ee4b28c, 0x550c7dc3d5ffb4e2,
   0x72be5d74f27b896f, 0x80deb1fe3b1696b1, 0x9bdc06a725c71235, 0xc19bf174cf692694,
   0xe49b69c19ef14ad2, 0xefbe4786384f25e3, 0x0fc19dc68b8cd5b5, 0x240ca1cc77ac9c65,
   0x2de92c6f592b0275, 0x4a7484aa6ea6e483, 0x5cb0a9dcbd41fbd4, 0x76f988da831153b5,
   0x983e5152ee66dfab, 0xa831c66d2db43210, 0xb00327c898fb213f, 0xbf597fc7beef0ee4,
   0xc6e00bf33da88fc2, 0xd5a79147930aa725, 0x06ca6351e003826f, 0x142929670a0e6e70,
   0x27b70a8546d22ffc, 0x2e1b21385c26c926, 0x4d2c6dfc5ac42aed, 0x53380d139d95b3df,
   0x650a73548baf63de, 0x766a0abb3c77b2a8, 0x81c2c92e47edaee6, 0x92722c851482353b,
   0xa2bfe8a14cf10364, 0xa81a664bbc423001, 0xc24b8b70d0f89791, 0xc76c51a30654be30,
   0xd192e819d6ef5218, 0xd69906245565a910, 0xf40e35855771202a, 0x106aa07032bbd1b8,
   0x19a4c116b8d2d0c8, 0x1e376c085141ab53, 0x2748774cdf8eeb99, 0x34b0bcb5e19b48a8,
   0x391c0cb3c5c95a63, 0x4ed8aa4ae3418acb, 0x5b9cca4f7763e373, 0x682e6ff3d6b2b8a3,
   0x748f82ee5defb2fc, 0x78a5636f43172f60, 0x84c87814a1f0ab72, 0x8cc702081a6439ec,
   0x90befffa23631e28, 0xa4506cebde82bde9, 0xbef9a3f7b2c67915, 0xc67178f2e372532b,
   0xca273eceea26619c, 0xd186b8c721c0c207, 0xeada7dd6cde0eb1e, 0xf57d4f7fee6ed178,
   0x06f067aa72176fba, 0x0a637dc5a2c898a6, 0x113f9804bef90dae, 0x1b710b35131c471b,
   0x28db77f523047d84, 0x32caab7b40c72493, 0x3c9ebe0a15c9bebc, 0x431d67c49c100d4c,
   0x4cc5d4becb3e42b6, 0x597f299cfc657e2a, 0x5fcb6fab3ad6faec, 0x6c44198c4a475817]

/-- The chaining value. -/
structure State where
  (a b c d e f g h : UInt64)

/-- Fractional parts of the square roots of the first eight primes. -/
def State.init : State :=
  ⟨0x6a09e667f3bcc908, 0xbb67ae8584caa73b, 0x3c6ef372fe94f82b, 0xa54ff53a5f1d36f1,
   0x510e527fade682d1, 0x9b05688c2b3e6c1f, 0x1f83d9abfb41bd6b, 0x5be0cd19137e2179⟩

@[inline] def rotr (x n : UInt64) : UInt64 := (x >>> n) ||| (x <<< (64 - n))

@[inline] def bigSigma0 (x : UInt64) : UInt64 := rotr x 28 ^^^ rotr x 34 ^^^ rotr x 39

@[inline] def bigSigma1 (x : UInt64) : UInt64 := rotr x 14 ^^^ rotr x 18 ^^^ rotr x 41

@[inline] def smallSigma0 (x : UInt64) : UInt64 := rotr x 1 ^^^ rotr x 8 ^^^ (x >>> 7)

@[inline] def smallSigma1 (x : UInt64) : UInt64 := rotr x 19 ^^^ rotr x 61 ^^^ (x >>> 6)

@[inline] def choice (x y z : UInt64) : UInt64 := (x &&& y) ^^^ (~~~x &&& z)

@[inline] def majority (x y z : UInt64) : UInt64 := (x &&& y) ^^^ (x &&& z) ^^^ (y &&& z)

/-- One round for each constant. Words `w0` to `w15` are those of the schedule that come next; a
round uses the first and appends one behind the last. -/
def rounds : List UInt64 → (a b c d e f g h w0 w1 w2 w3 w4 w5 w6 w7 w8 w9 w10 w11 w12 w13 w14
    w15 : UInt64) → State
  | [], a, b, c, d, e, f, g, h, _, _, _, _, _, _, _, _, _, _, _, _, _, _, _, _ =>
    ⟨a, b, c, d, e, f, g, h⟩
  | k :: ks, a, b, c, d, e, f, g, h, w0, w1, w2, w3, w4, w5, w6, w7, w8, w9, w10, w11, w12, w13,
      w14, w15 =>
    let t := h + bigSigma1 e + choice e f g + k + w0
    rounds ks (t + bigSigma0 a + majority a b c) a b c (d + t) e f g
      w1 w2 w3 w4 w5 w6 w7 w8 w9 w10 w11 w12 w13 w14 w15
      (w0 + smallSigma0 w1 + w9 + smallSigma1 w14)

def State.add (s t : State) : State :=
  ⟨s.a + t.a, s.b + t.b, s.c + t.c, s.d + t.d, s.e + t.e, s.f + t.f, s.g + t.g, s.h + t.h⟩

/-- One block of sixteen words at a time; a shorter tail does not occur in a padded message. -/
def absorb (s : State) : List UInt64 → State
  | w0 :: w1 :: w2 :: w3 :: w4 :: w5 :: w6 :: w7 :: w8 :: w9 :: w10 :: w11 :: w12 :: w13 ::
      w14 :: w15 :: rest =>
    absorb
      (s.add (rounds constants s.a s.b s.c s.d s.e s.f s.g s.h
        w0 w1 w2 w3 w4 w5 w6 w7 w8 w9 w10 w11 w12 w13 w14 w15)) rest
  | _ => s

@[inline] def word (b0 b1 b2 b3 b4 b5 b6 b7 : UInt8) : UInt64 :=
  b0.toUInt64 <<< 56 ||| b1.toUInt64 <<< 48 ||| b2.toUInt64 <<< 40 ||| b3.toUInt64 <<< 32 |||
    b4.toUInt64 <<< 24 ||| b5.toUInt64 <<< 16 ||| b6.toUInt64 <<< 8 ||| b7.toUInt64

/-- Big-endian words of a byte string. -/
def words : Bytes → List UInt64
  | b0 :: b1 :: b2 :: b3 :: b4 :: b5 :: b6 :: b7 :: rest =>
    word b0 b1 b2 b3 b4 b5 b6 b7 :: words rest
  | _ => []

/-- Big-endian words of a byte string with a tail behind it; the tail alone is copied. -/
def wordsWith (tail : Bytes) : Bytes → List UInt64
  | b0 :: b1 :: b2 :: b3 :: b4 :: b5 :: b6 :: b7 :: rest =>
    word b0 b1 b2 b3 b4 b5 b6 b7 :: wordsWith tail rest
  | rest => words (rest ++ tail)

theorem wordsWith_eq (tail message : Bytes) : wordsWith tail message = words (message ++ tail) := by
  fun_induction wordsWith tail message with
  | case1 b0 b1 b2 b3 b4 b5 b6 b7 rest ih => simp only [List.cons_append, words, ih]
  | case2 rest => rfl

/-- A one bit, zeros, and the bit length as a 128-bit number, up to a whole number of blocks. -/
def padding (length : Nat) : Bytes :=
  0x80 :: List.replicate ((239 - length % 128) % 128) 0 ++
    Bytes.be64 (UInt64.ofNat (length * 8 / UInt64.size)) ++ Bytes.be64 (UInt64.ofNat (length * 8))

def State.digest (s : State) : Bytes :=
  [s.a, s.b, s.c, s.d, s.e, s.f, s.g, s.h].flatMap Bytes.be64

theorem length_digest (s : State) : s.digest.length = 64 := rfl

end ChainNode.Sha512

namespace ChainNode

def sha512 (message : Bytes) : Bytes :=
  (Sha512.absorb .init (Sha512.wordsWith (Sha512.padding message.length) message)).digest

theorem length_sha512 (message : Bytes) : (sha512 message).length = 64 :=
  Sha512.length_digest _

end ChainNode
