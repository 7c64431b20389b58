/-
UTF-8. `encode` writes characters; `decode` reads a well-formed block and nothing else; `decodeLossy` reads any block
and puts U+FFFD for each longest piece of a broken sequence.
-/
import ByteAtlas.Word

namespace ByteAtlas.Text.Utf8

def encodeChar (c : Char) : Bytes :=
  let n := c.toNat
  if n < 0x80 then [UInt8.ofNat n]
  else if n < 0x800 then [UInt8.ofNat (0xc0 + n / 64), UInt8.ofNat (0x80 + n % 64)]
  else if n < 0x10000 then
    [UInt8.ofNat (0xe0 + n / 4096), UInt8.ofNat (0x80 + n / 64 % 64), UInt8.ofNat (0x80 + n % 64)]
  else
    [UInt8.ofNat (0xf0 + n / 262144), UInt8.ofNat (0x80 + n / 4096 % 64), UInt8.ofNat (0x80 + n / 64 % 64),
      UInt8.ofNat (0x80 + n % 64)]

def encode (cs : List Char) : Bytes := cs.flatMap encodeChar

/-- what a first byte promises: its own bits, the number of bytes to come, and the range of the next one -/
structure Lead where
  bits : Nat
  more : Nat
  low : Nat
  high : Nat

/-- the promise of a first byte; the ranges leave out overlong forms, surrogates and numbers past the last character -/
def lead (b : Nat) : Option Lead :=
  if b < 0x80 then some ⟨b, 0, 0, 0⟩
  else if 0xc2 ≤ b ∧ b ≤ 0xdf then some ⟨b % 32, 1, 0x80, 0xbf⟩
  else if b = 0xe0 then some ⟨0, 2, 0xa0, 0xbf⟩
  else if b = 0xed then some ⟨13, 2, 0x80, 0x9f⟩
  else if 0xe1 ≤ b ∧ b ≤ 0xef then some ⟨b % 16, 2, 0x80, 0xbf⟩
  else if b = 0xf0 then some ⟨0, 3, 0x90, 0xbf⟩
  else if 0xf1 ≤ b ∧ b ≤ 0xf3 then some ⟨b % 8, 3, 0x80, 0xbf⟩
  else if b = 0xf4 then some ⟨4, 3, 0x80, 0x8f⟩
  else none

/-- reads `more` bytes after a first one, the next of them between `low` and `high`: the number they make up, or
nothing, and how many of them belong to it -/
def follow : Nat → Nat → Nat → Nat → Bytes → Option Nat × Nat
  | 0, _, _, acc, _ => (some acc, 0)
  | _ + 1, _, _, _, [] => (none, 0)
  | more + 1, low, high, acc, b :: rest =>
    if low ≤ b.toNat ∧ b.toNat ≤ high then
      let (r, used) := follow more 0x80 0xbf (acc * 64 + b.toNat % 64) rest
      (r, used + 1)
    else (none, 0)

/-- the character that starts with a byte, and how many of the bytes after it belong to it (or to its broken piece) -/
def step (b : UInt8) (rest : Bytes) : Option Char × Nat :=
  match lead b.toNat with
  | none => (none, 0)
  | some l =>
    let (r, used) := follow l.more l.low l.high l.bits rest
    (r.map Char.ofNat, used)

/-- the characters of a block, nothing for each broken piece; the first `skip` bytes are passed over -/
def pieces : Nat → Bytes → List (Option Char)
  | _, [] => []
  | skip + 1, _ :: rest => pieces skip rest
  | 0, b :: rest => (step b rest).1 :: pieces (step b rest).2 rest

/-- the characters of a well-formed block -/
def decode (bs : Bytes) : Option (List Char) := (pieces 0 bs).mapM id

/-- the characters of any block, U+FFFD for each broken piece -/
def decodeLossy (bs : Bytes) : List Char := (pieces 0 bs).map (·.getD '\ufffd')

example : decodeLossy [0x61, 0xf0, 0x9f, 0x98, 0x62, 0xed, 0xa0, 0x80] =
    ['a', '\ufffd', 'b', '\ufffd', '\ufffd', '\ufffd'] := by decide
example : decode (encode "aé€😀".toList) = some "aé€😀".toList := by decide

end ByteAtlas.Text.Utf8
