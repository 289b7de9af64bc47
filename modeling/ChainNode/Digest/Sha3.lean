import ChainNode.Bytes

/-!
# SHA3-512 (FIPS 202)

The Keccak state is five planes of five lanes. A round is θ, ρ and π, χ, ι; the sponge takes
nine lanes (72 bytes) of the padded message at a time and yields eight lanes.

* `length_sha3`: a digest has 64 bytes.
-/
namespace ChainNode.Keccak

structure Plane where
  (x0 x1 x2 x3 x4 : UInt64)

structure State where
  (p0 p1 p2 p3 p4 : Plane)

def Plane.zero : Plane := ⟨0, 0, 0, 0, 0⟩

def State.zero : State := ⟨.zero, .zero, .zero, .zero, .zero⟩

def Plane.xor (p q : Plane) : Plane :=
  ⟨p.x0 ^^^ q.x0, p.x1 ^^^ q.x1, p.x2 ^^^ q.x2, p.x3 ^^^ q.x3, p.x4 ^^^ q.x4⟩

@[inline] def rotl (x n : UInt64) : UInt64 := (x <<< n) ||| (x >>> (64 - n))

/-- Every lane takes in the parities of the two columns beside it. -/
def State.theta (s : State) : State :=
  let c := (((s.p0.xor s.p1).xor s.p2).xor s.p3).xor s.p4
  let d : Plane :=
    ⟨c.x4 ^^^ rotl c.x1 1, c.x0 ^^^ rotl c.x2 1, c.x1 ^^^ rotl c.x3 1, c.x2 ^^^ rotl c.x4 1,
      c.x3 ^^^ rotl c.x0 1⟩
  ⟨s.p0.xor d, s.p1.xor d, s.p2.xor d, s.p3.xor d, s.p4.xor d⟩

/-- Rotate each lane by its offset and move it to its new place. -/
def State.rhoPi (s : State) : State :=
  ⟨⟨s.p0.x0, rotl s.p1.x1 44, rotl s.p2.x2 43, rotl s.p3.x3 21, rotl s.p4.x4 14⟩,
   ⟨rotl s.p0.x3 28, rotl s.p1.x4 20, rotl s.p2.x0 3, rotl s.p3.x1 45, rotl s.p4.x2 61⟩,
   ⟨rotl s.p0.x1 1, rotl s.p1.x2 6, rotl s.p2.x3 25, rotl s.p3.x4 8, rotl s.p4.x0 18⟩,
   ⟨rotl s.p0.x4 27, rotl s.p1.x0 36, rotl s.p2.x1 10, rotl s.p3.x2 15, rotl s.p4.x3 56⟩,
   ⟨rotl s.p0.x2 62, rotl s.p1.x3 55, rotl s.p2.x4 39, rotl s.p3.x0 41, rotl s.p4.x1 2⟩⟩

def Plane.chi (p : Plane) : Plane :=
  ⟨p.x0 ^^^ (~~~p.x1 &&& p.x2), p.x1 ^^^ (~~~p.x2 &&& p.x3), p.x2 ^^^ (~~~p.x3 &&& p.x4),
    p.x3 ^^^ (~~~p.x4 &&& p.x0), p.x4 ^^^ (~~~p.x0 &&& p.x1)⟩

def State.round (s : State) (constant : UInt64) : State :=
  let t := s.theta.rhoPi
  let p := t.p0.chi
  ⟨{ p with x0 := p.x0 ^^^ constant }, t.p1.chi, t.p2.chi, t.p3.chi, t.p4.chi⟩

def constants : List UInt64 :=
  [0x0000000000000001, 0x0000000000008082, 0x800000000000808a, 0x8000000080008000,
   0x000000000000808b, 0x0000000080000001, 0x8000000080008081, 0x8000000000008009,
   0x000000000000008a, 0x0000000000000088, 0x0000000080008009, 0x000000008000000a,
   0x000000008000808b, 0x800000000000008b, 0x8000000000008089, 0x8000000000008003,
   0x8000000000008002, 0x8000000000000080, 0x000000000000800a, 0x800000008000000a,
   0x8000000080008081, 0x8000000000008080, 0x0000000080000001, 0x8000000080008008]

def State.permute (s : State) : State := constants.foldl State.round s

def absorb (s : State) : List UInt64 → State
  | a0 :: a1 :: a2 :: a3 :: a4 :: a5 :: a6 :: a7 :: a8 :: rest =>
    absorb
      { s with
        p0 := s.p0.xor ⟨a0, a1, a2, a3, a4⟩
        p1 := s.p1.xor ⟨a5, a6, a7, a8, 0⟩ }.permute rest
  | _ => s

/-- Little-endian lanes of a byte string. -/
def lanes : Bytes → List UInt64
  | b0 :: b1 :: b2 :: b3 :: b4 :: b5 :: b6 :: b7 :: rest =>
    (b0.toUInt64 ||| b1.toUInt64 <<< 8 ||| b2.toUInt64 <<< 16 ||| b3.toUInt64 <<< 24 |||
      b4.toUInt64 <<< 32 ||| b5.toUInt64 <<< 40 ||| b6.toUInt64 <<< 48 ||| b7.toUInt64 <<< 56) ::
      lanes rest
  | _ => []

/-- The hash suffix `01`, a one bit, zeros and a final one bit, up to a whole number of blocks. -/
def padding (length : Nat) : Bytes :=
  match 72 - length % 72 with
  | 1 => [0x86]
  | n => 0x06 :: List.replicate (n - 2) 0 ++ [0x80]

def State.digest (s : State) : Bytes :=
  [s.p0.x0, s.p0.x1, s.p0.x2, s.p0.x3, s.p0.x4, s.p1.x0, s.p1.x1, s.p1.x2].flatMap Bytes.le64

theorem length_digest (s : State) : s.digest.length = 64 := rfl

end ChainNode.Keccak

namespace ChainNode

/-- SHA3-512. -/
def sha3 (message : Bytes) : Bytes :=
  (Keccak.absorb .zero (Keccak.lanes (message ++ Keccak.padding message.length))).digest

theorem length_sha3 (message : Bytes) : (sha3 message).length = 64 :=
  Keccak.length_digest _

end ChainNode
