/-
UTF-16 with the low byte of a unit first. `decodeLossy` puts U+FFFD for a surrogate that has no partner.
-/
import ByteAtlas.Word

namespace ByteAtlas.Text.Utf16

/-- the units of a character: itself, or two surrogates -/
def encodeChar (c : Char) : List Nat :=
  let n := c.toNat
  if n < 0x10000 then [n] else [0xd800 + (n - 0x10000) / 1024, 0xdc00 + (n - 0x10000) % 1024]

def encode (cs : List Char) : List Nat := cs.flatMap encodeChar

/-- the first surrogate of a pair -/
def isHigh (u : Nat) : Bool := 0xd800 ≤ u && u < 0xdc00

/-- the second surrogate of a pair -/
def isLow (u : Nat) : Bool := 0xdc00 ≤ u && u < 0xe000

/-- the characters of a sequence of units, U+FFFD for each surrogate alone -/
def decodeLossy : List Nat → List Char
  | [] => []
  | [u] => [if isHigh u || isLow u then '\ufffd' else Char.ofNat u]
  | u :: v :: rest =>
    if isHigh u then
      if isLow v then Char.ofNat (0x10000 + (u - 0xd800) * 1024 + (v - 0xdc00)) :: decodeLossy rest
      else '\ufffd' :: decodeLossy (v :: rest)
    else if isLow u then '\ufffd' :: decodeLossy (v :: rest)
    else Char.ofNat u :: decodeLossy (v :: rest)

/-- the units that a block holds; a last odd byte is left out -/
def ofBytes : Bytes → List Nat
  | a :: b :: rest => (a.toNat + 256 * b.toNat) :: ofBytes rest
  | _ => []

def toBytes (us : List Nat) : Bytes := us.flatMap (Bytes.ofNat 2)

example : decodeLossy (ofBytes (toBytes (encode "aé😀".toList))) = "aé😀".toList := by decide
example : decodeLossy [0xd800, 0x61, 0xdc00] = ['\ufffd', 'a', '\ufffd'] := by decide

end ByteAtlas.Text.Utf16
