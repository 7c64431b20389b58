/-
Edits: changes to a tree and to the bytes that it describes. Each edit carries what was there before and what is there
after, so that it can be applied and taken back.
-/
import ByteAtlas.Tree.Walk

namespace ByteAtlas

/-- the fields that change together when a node becomes another kind -/
structure Shape where
  kind : Kind
  arrayLen : UInt64
  elementKind : Kind
  textLen : UInt64
  deriving DecidableEq, Repr

def Node.shape (n : Node) : Shape := ⟨n.kind, n.arrayLen, n.elementKind, n.textLen⟩

def Node.withShape (n : Node) (s : Shape) : Node :=
  { n with kind := s.kind, arrayLen := s.arrayLen, elementKind := s.elementKind, textLen := s.textLen }

/-- one change that can be taken back -/
inductive Edit where
  /-- appends nodes; the parent of each is there already or comes earlier among them -/
  | insert (nodes : List Node)
  /-- takes nodes out, each told with its position, in order of positions and with all that they hold -/
  | remove (removed : List (Nat × Node))
  | reshape (id : NodeId) (old new : Shape)
  | rename (id : NodeId) (old new : String)
  | nameStruct (id : NodeId) (old new : String)
  /-- gives a node another parent and another offset -/
  | move (id : NodeId) (old new : NodeId × UInt64)
  | fold (id : NodeId) (old new : Bool)
  | refer (id : NodeId) (old new : NodeId)
  | write (address : UInt64) (old new : Bytes)
  /-- edits in order, as one -/
  | batch (edits : List Edit)

/-- the edit that changes nothing -/
instance : Inhabited Edit := ⟨.batch []⟩

namespace Edit

/-- short name of the sort of edit -/
def label : Edit → String
  | insert _ => "insert"
  | remove _ => "remove"
  | reshape _ _ _ => "change-kind"
  | rename _ _ _ => "rename"
  | nameStruct _ _ _ => "set-type-name"
  | move _ _ _ => "move"
  | fold _ _ _ => "set-collapsed"
  | refer _ _ _ => "set-ref"
  | write _ _ _ => "write-bytes"
  | batch _ => "batch"

/-- positions below `n` that are in one of some lists, in order -/
def positions (n : Nat) (lists : List (List Nat)) : List Nat :=
  (List.range n).filter fun i => lists.any fun l => l.contains i

def removal (t : Tree) (ids : List NodeId) : Except EditError Edit :=
  match ids.find? fun id => !t.contains id with
  | some id => .error (.missingNode id)
  | none =>
    .ok (.remove ((positions t.nodes.length (ids.map t.subtree)).filterMap fun i => (t.nodes[i]?).map fun n => (i, n)))

end Edit

end ByteAtlas
