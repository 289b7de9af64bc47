import ChainNode.Digest.Sha512
import ChainNode.Digest.Sha3
import ChainNode.Label

/-!
# The double digest and its difficulty

Everything on the chain is named by `fingerprint`: the lowercase hexadecimal text of SHA3-512
over SHA-512. A proof of work is a fingerprint that starts with enough zeros.

* `length_doubleDigest`, `length_fingerprint`: 64 bytes, 128 digits.
-/
namespace ChainNode

def doubleDigest (bytes : Bytes) : Bytes := sha3 (sha512 bytes)

@[simp] theorem length_doubleDigest (bytes : Bytes) : (doubleDigest bytes).length = 64 :=
  length_sha3 _

/-- The text that names a byte string. -/
def fingerprint (bytes : Bytes) : Label where
  chars := (doubleDigest bytes).hex
  fits := by
    have size := utf8ByteSize_ofList_le (doubleDigest bytes).hexChars
    rw [Bytes.length_hexChars, length_doubleDigest] at size
    exact Nat.lt_of_le_of_lt size (by decide)

theorem toList_fingerprint (bytes : Bytes) :
    (fingerprint bytes).chars.toList = (doubleDigest bytes).hexChars := by
  simp [fingerprint, Bytes.hex]

theorem length_fingerprint (bytes : Bytes) : (fingerprint bytes).chars.length = 128 := by
  rw [← String.length_toList, toList_fingerprint]; simp

/-- How many zeros a text starts with. -/
def leadingZeros (hash : String) : Nat := (hash.toList.takeWhile (· == '0')).length

def meetsDifficulty (hash : String) (difficulty : UInt32) : Bool :=
  difficulty.toNat ≤ leadingZeros hash

end ChainNode
