/-
A transport over a fixed range of memory, with symbols, and with addresses at which it refuses writes or dies.
-/
import ByteAtlas.Source.Remote

namespace ByteAtlas

/-- memory that starts at an address, and how it behaves -/
structure Image where
  start : UInt64
  data : Bytes
  symbols : List (UInt64 × String)
  /-- writes at this address are refused -/
  refused : Option UInt64
  /-- reads and writes at this address are deadly -/
  deadly : Option UInt64
  /-- whether it can only tell its size and be read -/
  bare : Bool
  deriving DecidableEq, Repr

namespace Image

def read (m : Image) (address : UInt64) (n : Nat) : Option (Option Bytes × Image) :=
  if m.deadly = some address then none
  else some (m.data.readAt m.start address n, m)

def write (m : Image) (address : UInt64) (new : Bytes) : Option (Bool × Image) :=
  if m.bare || m.refused == some address then some (false, m)
  else if m.deadly = some address then none
  else match m.data.writeAt m.start address new with
    | some data => some (true, { m with data })
    | none => some (false, m)

def symbol (m : Image) (address : UInt64) : Option String := if m.bare then none else m.symbols.lookup address

instance : Transport Image where
  size m := some (UInt64.ofNat m.data.length, m)
  read := read
  write := write
  symbol m address := some (m.symbol address, m)

end Image

end ByteAtlas
