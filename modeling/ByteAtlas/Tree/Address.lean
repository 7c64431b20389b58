/-
Addresses: the offsets on the way up to the outermost level, added to the base.
-/
import ByteAtlas.Tree.Basic

namespace ByteAtlas.Tree

/-- sum of the offsets met in at most so many steps up from a position; a parent that is not there ends the walk -/
def climb (t : Tree) : Nat → Nat → UInt64
  | 0, _ => 0
  | steps + 1, i =>
    match t.nodes[i]? with
    | none => 0
    | some n =>
      if n.parent = 0 then n.offset
      else match t.position? n.parent with
        | none => n.offset
        | some p => n.offset + climb t steps p

/-- the address of the node at a position, the base for a position past the end -/
def address (t : Tree) (i : Nat) : UInt64 := t.base + t.climb (t.nodes.length + 1) i

def addressById (t : Tree) (id : NodeId) : Option UInt64 := (t.position? id).map t.address

end ByteAtlas.Tree
