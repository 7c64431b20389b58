/-
The text of a value: what the bytes of a node look like. Missing bytes count as zeros, bytes past the kind's width are
not looked at.
-/
import ByteAtlas.Kind
import ByteAtlas.Text.Digits
import ByteAtlas.Text.Utf8
import ByteAtlas.Text.Utf16
import ByteAtlas.Decimal.Shortest

namespace ByteAtlas.Value

/-- the number in the first bytes of a block -/
def unsigned (n : Nat) (bs : Bytes) : Nat := (bs.resize n).toNat

/-- the number in the first bytes of a block, in two's complement -/
def signed (n : Nat) (bs : Bytes) : Int :=
  let v := unsigned n bs
  if 2 * v < Bytes.capacity n then v else (v : Int) - Bytes.capacity n

/-- bytes in memory order, two digits each -/
def hexText (bs : Bytes) : List Char :=
  [' '].intercalate (bs.map fun b => Text.upperHexFixed 2 b.toNat)

def singleAt (bs : Bytes) (start : Nat) : List Char :=
  Decimal.shortest .single (unsigned 4 (bs.drop start))

/-- `n` four-byte floats side by side -/
def row (bs : Bytes) (first n : Nat) : List Char :=
  ", ".toList.intercalate ((List.range' first n).map fun i => singleAt bs (4 * i))

def showChars (k : Kind) (bs : Bytes) : List Char :=
  match k with
  | .hex8 | .hex16 | .hex32 | .hex64 => hexText (bs.resize k.width)
  | .int8 | .int16 | .int32 | .int64 => Text.decimalInt (signed k.width bs)
  | .uint8 => '0' :: 'x' :: Text.upperHexFixed 2 (unsigned 1 bs)
  | .uint16 | .uint32 | .uint64 => Text.decimal (unsigned k.width bs)
  | .float => singleAt bs 0
  | .double => Decimal.shortest .double (unsigned 8 bs)
  | .bool => if unsigned 1 bs = 0 then "false".toList else "true".toList
  | .pointer32 | .pointer64 => '0' :: 'x' :: Text.upperHexFixed (2 * k.width) (unsigned k.width bs)
  | .vec2 | .vec3 | .vec4 => row bs 0 (k.width / 4)
  | .mat4x4 => "; ".toList.intercalate ((List.range 4).map fun r => row bs (4 * r) 4)
  | .utf8 => Text.Utf8.decodeLossy (bs.takeWhile (· != 0))
  | .utf16 => Text.Utf16.decodeLossy ((Text.Utf16.ofBytes bs).takeWhile (· != 0))
  | .padding | .array | .struct => []

end ByteAtlas.Value

def ByteAtlas.Kind.showValue (k : Kind) (bs : Bytes) : String := String.ofList (Value.showChars k bs)
