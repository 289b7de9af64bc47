import ChainNode.Bytes
import ChainNode.Label

/-!
# The canonical encoding

Values are written one after the other without separators: words low byte first, a text or a
list after its length as a 64-bit word, a constructor after its 32-bit number, an optional
value after a flag byte. Fingerprints are taken over these bytes.
-/
namespace ChainNode.Canonical

/-- A length or count as a word. -/
def count (n : Nat) : Bytes := Bytes.le64 (UInt64.ofNat n)

def text (s : String) : Bytes := count s.utf8ByteSize ++ s.toUTF8.data.toList

def label (s : Label) : Bytes := text s.chars

def list {α : Type} (write : α → Bytes) (xs : List α) : Bytes := count xs.length ++ xs.flatMap write

def row {α : Type} (write : α → Bytes) (xs : Row α) : Bytes := list write xs.val

/-- The number of a constructor. -/
def tag (n : Nat) : Bytes := Bytes.le32 (UInt32.ofNat n)

def flag (b : Bool) : Bytes := [if b then 1 else 0]

def option {α : Type} (write : α → Bytes) : Option α → Bytes
  | none => flag false
  | some x => flag true ++ write x

end ChainNode.Canonical
