/-
The kinds of a node: how its bytes are read, and whether it can hold other nodes.
-/
import ByteAtlas.Word

namespace ByteAtlas

inductive Kind where
  | hex8 | hex16 | hex32 | hex64
  | int8 | int16 | int32 | int64
  | uint8 | uint16 | uint32 | uint64
  | float | double | bool
  | pointer32 | pointer64
  | vec2 | vec3 | vec4 | mat4x4
  | utf8 | utf16
  | padding | array | struct
  deriving DecidableEq, Repr, Inhabited

namespace Kind

def all : List Kind :=
  [hex8, hex16, hex32, hex64, int8, int16, int32, int64, uint8, uint16, uint32, uint64, float, double, bool, pointer32,
    pointer64, vec2, vec3, vec4, mat4x4, utf8, utf16, padding, array, struct]

/-- name in stored trees and messages -/
def name : Kind → String
  | hex8 => "Hex8"
  | hex16 => "Hex16"
  | hex32 => "Hex32"
  | hex64 => "Hex64"
  | int8 => "Int8"
  | int16 => "Int16"
  | int32 => "Int32"
  | int64 => "Int64"
  | uint8 => "UInt8"
  | uint16 => "UInt16"
  | uint32 => "UInt32"
  | uint64 => "UInt64"
  | float => "Float"
  | double => "Double"
  | bool => "Bool"
  | pointer32 => "Pointer32"
  | pointer64 => "Pointer64"
  | vec2 => "Vec2"
  | vec3 => "Vec3"
  | vec4 => "Vec4"
  | mat4x4 => "Mat4x4"
  | utf8 => "UTF8"
  | utf16 => "UTF16"
  | padding => "Padding"
  | array => "Array"
  | struct => "Struct"

def ofName? (s : String) : Option Kind := all.find? fun k => k.name == s

/-- bytes of a kind whose size depends on nothing else -/
def fixedSize : Kind → Option UInt64
  | hex8 | int8 | uint8 | bool => some 1
  | hex16 | int16 | uint16 => some 2
  | hex32 | int32 | uint32 | float | pointer32 => some 4
  | hex64 | int64 | uint64 | double | pointer64 | vec2 => some 8
  | vec3 => some 12
  | vec4 => some 16
  | mat4x4 => some 64
  | utf8 | utf16 | padding | array | struct => none

/-- bytes of a kind of fixed size, zero for the others -/
def width (k : Kind) : Nat := (k.fixedSize.getD 0).toNat

def isRaw : Kind → Bool
  | hex8 | hex16 | hex32 | hex64 => true
  | _ => false

def isPointer : Kind → Bool
  | pointer32 | pointer64 => true
  | _ => false

def canHold : Kind → Bool
  | struct | array => true
  | _ => false

def isText : Kind → Bool
  | utf8 | utf16 => true
  | _ => false

/-- kinds whose bytes are shown and edited as one value -/
def hasValue : Kind → Bool
  | padding | array | struct => false
  | _ => true

theorem canHold_iff {k : Kind} : k.canHold ↔ k = struct ∨ k = array := by cases k <;> simp [canHold]

theorem ofName?_name (k : Kind) : ofName? k.name = some k := by cases k <;> decide

end Kind

end ByteAtlas
