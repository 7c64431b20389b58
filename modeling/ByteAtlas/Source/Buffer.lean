/-
Bytes held in memory, the first of them at an address that can be moved.
-/
import ByteAtlas.Word

namespace ByteAtlas

/-- a block of memory, its name, and the address of its first byte -/
structure Buffer where
  data : Bytes
  name : String
  base : UInt64
  deriving DecidableEq, Repr

namespace Buffer

/-- `n` bytes at an address; none of them is read unless all can be, and no bytes can be read everywhere -/
def read (b : Buffer) (address : UInt64) (n : Nat) : Option Bytes :=
  if n = 0 then some [] else b.data.readAt b.base address n

/-- the block with bytes written at an address; none of them is written unless all can be, and no bytes can be written
everywhere -/
def write (b : Buffer) (address : UInt64) (new : Bytes) : Option Buffer :=
  if new.isEmpty then some b else (b.data.writeAt b.base address new).map fun data => { b with data }

def size (b : Buffer) : UInt64 := UInt64.ofNat b.data.length

def covers (b : Buffer) (address length : UInt64) : Bool :=
  length == 0 || (b.base ≤ address && (address.toNat - b.base.toNat) + length.toNat < UInt64.size &&
    (address.toNat - b.base.toNat) + length.toNat ≤ b.size.toNat)

end Buffer

end ByteAtlas
