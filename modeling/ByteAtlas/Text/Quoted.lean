/-
Quoted text, as messages show it: between double quotes, with escapes for the characters that would not be seen.
-/
import ByteAtlas.Text.Printable

namespace ByteAtlas.Text

/-- one character of quoted text; what cannot be shown is written as its number in braces -/
def quoteChar (c : Char) : List Char :=
  if c = '\x00' then ['\\', '0']
  else if c = '\t' then ['\\', 't']
  else if c = '\r' then ['\\', 'r']
  else if c = '\n' then ['\\', 'n']
  else if c = '\\' then ['\\', '\\']
  else if c = '"' then ['\\', '"']
  else if isJoining c || isHidden c then ['\\', 'u', '\x7b'] ++ Nat.toDigits 16 c.toNat ++ ['\x7d']
  else [c]

def quote (s : String) : String := String.ofList ('"' :: s.toList.flatMap quoteChar ++ ['"'])

end ByteAtlas.Text
