import ChainNode.Text.Unprintable

/-!
# Quoted texts

A text between double quotes. Quotes and backslashes are escaped, tab, line feed, carriage return
and NUL have short forms, and a character that would not show is written by its code point.
-/
namespace ChainNode.Text

/-- Hexadecimal digits of a number, without zeros in front. -/
def hexDigits (n : Nat) : List Char := Nat.toDigits 16 n

def escape (c : Char) : List Char :=
  if c = '\x00' then ['\\', '0']
  else if c = '\t' then ['\\', 't']
  else if c = '\r' then ['\\', 'r']
  else if c = '\n' then ['\\', 'n']
  else if c = '\\' ∨ c = '"' then ['\\', c]
  else if isUnprintable c then ['\\', 'u', '\x7b'] ++ hexDigits c.toNat ++ ['\x7d']
  else [c]

def quoted (s : String) : String := String.ofList ('"' :: s.toList.flatMap escape ++ ['"'])

end ChainNode.Text
