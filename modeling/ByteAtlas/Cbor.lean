/-
CBOR with the shortest heads: whole numbers, texts, lists and maps of known length, and null.
-/
import ByteAtlas.Word
import ByteAtlas.Text.Utf8

namespace ByteAtlas.Cbor

/-- bytes of a number, most significant first -/
def bigEndian (n v : Nat) : Bytes := (Bytes.ofNat n v).reverse

/-- the head of an item: its major type and a number, in as few bytes as hold it -/
def head (major v : Nat) : Bytes :=
  let first (low : Nat) : UInt8 := UInt8.ofNat (32 * major + low)
  if v < 24 then [first v]
  else if v < UInt8.size then first 24 :: bigEndian 1 v
  else if v < UInt16.size then first 25 :: bigEndian 2 v
  else if v < UInt32.size then first 26 :: bigEndian 4 v
  else first 27 :: bigEndian 8 v

def nat (v : Nat) : Bytes := head 0 v

def text (s : String) : Bytes :=
  let bs := Text.Utf8.encode s.toList
  head 3 bs.length ++ bs

def list (items : List Bytes) : Bytes := head 4 items.length ++ items.flatten

def map (members : List (String × Bytes)) : Bytes :=
  head 5 members.length ++ members.flatMap fun m => text m.1 ++ m.2

def null : Bytes := [0xf6]

end ByteAtlas.Cbor
