/-
Why an edit is refused.
-/
import ByteAtlas.Node
import ByteAtlas.Value.Error

namespace ByteAtlas

/-- reasons for which a tree or a change to it is refused -/
inductive EditError where
  /-- there is no such node, or it is not where the edit expects it -/
  | missingNode (id : NodeId)
  | missingParent (id : NodeId)
  | notAContainer (id : NodeId)
  | duplicateId (id : NodeId)
  /-- the id leaves no room for new ones -/
  | idOutOfRange (id : NodeId)
  | wouldCreateCycle (node parent : NodeId)
  | orphanedChildren (id : NodeId)
  | writeFailed (address : UInt64) (length : Nat)
  | notEditable (id : NodeId)
  | invalidValue (reason : ValueError)
  deriving DecidableEq, Repr

def EditError.message : EditError → String
  | missingNode id => "node " ++ showId id ++ " not found"
  | missingParent id => "parent " ++ showId id ++ " not found"
  | notAContainer id => "node " ++ showId id ++ " cannot own children"
  | duplicateId id => "duplicate node id " ++ showId id
  | idOutOfRange id => "node id " ++ showId id ++ " is out of range"
  | wouldCreateCycle node parent => "moving " ++ showId node ++ " under " ++ showId parent ++ " would create a cycle"
  | orphanedChildren id => "node " ++ showId id ++ " still has children"
  | writeFailed address length =>
    "write of " ++ length.repr ++ " bytes at 0x" ++ String.ofList (Nat.toDigits 16 address.toNat) ++ " failed"
  | notEditable id => "node " ++ showId id ++ " is not editable"
  | invalidValue reason => reason.message

end ByteAtlas
