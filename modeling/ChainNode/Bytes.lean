/-!
# Byte strings

Fixed-width words as bytes, low byte first or high byte first, and the lowercase hexadecimal
text of a byte string.

* `length_le64`, `length_le32`: widths.
* `length_hexChars`: two digits for each byte.
-/
namespace ChainNode

abbrev Bytes := List UInt8

namespace Bytes

/-- The eight bytes of a word, low byte first. -/
def le64 (w : UInt64) : Bytes :=
  [w.toUInt8, (w >>> 8).toUInt8, (w >>> 16).toUInt8, (w >>> 24).toUInt8,
   (w >>> 32).toUInt8, (w >>> 40).toUInt8, (w >>> 48).toUInt8, (w >>> 56).toUInt8]

/-- The eight bytes of a word, high byte first. -/
def be64 (w : UInt64) : Bytes :=
  [(w >>> 56).toUInt8, (w >>> 48).toUInt8, (w >>> 40).toUInt8, (w >>> 32).toUInt8,
   (w >>> 24).toUInt8, (w >>> 16).toUInt8, (w >>> 8).toUInt8, w.toUInt8]

/-- The four bytes of a word, low byte first. -/
def le32 (w : UInt32) : Bytes :=
  [w.toUInt8, (w >>> 8).toUInt8, (w >>> 16).toUInt8, (w >>> 24).toUInt8]

@[simp] theorem length_le64 (w : UInt64) : (le64 w).length = 8 := rfl
@[simp] theorem length_le32 (w : UInt32) : (le32 w).length = 4 := rfl

/-- Two digits a byte, high half first, letters in lower case. -/
def hexChars (bytes : Bytes) : List Char :=
  bytes.flatMap fun b => [(b.toNat / 16).digitChar, (b.toNat % 16).digitChar]

def hex (bytes : Bytes) : String := String.ofList bytes.hexChars

@[simp] theorem length_hexChars (bytes : Bytes) : bytes.hexChars.length = 2 * bytes.length := by
  induction bytes with
  | nil => rfl
  | cons b bs ih => simp only [hexChars, List.flatMap_cons] at ih ⊢; simp [ih]; omega

end Bytes

end ChainNode
