/-!
# Decimal numbers of a fixed size

An optional plus sign and one or more ASCII digits, whose value is below a given size.
-/
namespace ChainNode.Text

def digitValue (c : Char) : Nat := c.toNat - '0'.toNat

/-- The value of digits read from the left. -/
def digitsValue (cs : List Char) : Nat := cs.foldl (fun n c => n * 10 + digitValue c) 0

def isDecimal (cs : List Char) : Bool := !cs.isEmpty && cs.all Char.isDigit

def withoutPlus : List Char → List Char
  | '+' :: cs => cs
  | cs => cs

def readDecimal (size : Nat) (cs : List Char) : Option Nat :=
  let digits := withoutPlus cs
  if isDecimal digits && digitsValue digits < size then some (digitsValue digits) else none

end ChainNode.Text
