/-
Trees of nodes. Nodes are kept in one list; parents and references are ids, so that moving a node and copying nodes from
one tree to another never renumber the rest. `places` tells where the node of an id is stored.
-/
import ByteAtlas.Tree.Places
import ByteAtlas.Edit.Error

namespace ByteAtlas

/-- a tree of nodes with the address of its outermost level and the id of the next new node -/
structure Tree where
  base : UInt64
  nodes : List Node
  places : Places
  nextId : UInt64
  deriving DecidableEq, Repr

namespace Tree

/-- the largest id that a stored tree or a caller may bring along; new ids have the other half of the words -/
def maxId : UInt64 := 0x7fffffffffffffff

def empty (base : UInt64) : Tree := ⟨base, [], .empty, 1⟩

/-! ## Looking up -/

def position? (t : Tree) (id : NodeId) : Option Nat := t.places.get? id

def find? (t : Tree) (id : NodeId) : Option Node := (t.position? id).bind fun i => t.nodes[i]?

def contains (t : Tree) (id : NodeId) : Bool := (t.position? id).isSome

/-- the first root struct with a type name -/
def rootNamed? (t : Tree) (name : String) : Option NodeId :=
  (t.nodes.find? fun n => n.isRoot && n.kind == .struct && n.typeName == name).map (·.id)

/-- whether a node may hold others: there is no parent to look at, or it is a struct or an array -/
def checkHolder (t : Tree) (parent : NodeId) : Except EditError Unit :=
  if parent = 0 then .ok ()
  else match t.find? parent with
    | none => .error (.missingParent parent)
    | some p => if p.kind.canHold then .ok () else .error (.notAContainer parent)

/-- the parent of an id; zero for a root and for an id that is not there -/
def parentOf (t : Tree) (id : NodeId) : NodeId := ((t.find? id).map (·.parent)).getD 0

/-- whether a walk of so many steps up from `cur` reaches `id` or has not come to an end -/
def climbsTo (t : Tree) (id : NodeId) : Nat → NodeId → Bool
  | 0, _ => true
  | steps + 1, cur => if cur = 0 then false else if cur = id then true else climbsTo t id steps (t.parentOf cur)

/-- whether the parents of a node lead back to it or run in a ring above it -/
def isOnRing (t : Tree) (id : NodeId) : Bool := t.climbsTo id (t.nodes.length + 1) (t.parentOf id)

/-! ## Changing -/

/-- a new id, and the tree that will not give it out again -/
def reserve (t : Tree) : NodeId × Tree := (t.nextId, { t with nextId := Word.satAdd t.nextId 1 })

/-- the allocator moved past an id -/
def advance (t : Tree) (id : NodeId) : UInt64 := max t.nextId (Word.satAdd id 1)

/-- appends a node without asking whether it fits -/
def push (t : Tree) (n : Node) : Tree :=
  { t with nodes := t.nodes ++ [n], places := t.places.put n.id t.nodes.length, nextId := t.advance n.id }

/-- puts a node at a position, or at the end if the position lies past it -/
def putAt (t : Tree) (i : Nat) (n : Node) : Tree :=
  let i := min i t.nodes.length
  let nodes := t.nodes.take i ++ n :: t.nodes.drop i
  { t with nodes, places := t.places.putAll i (nodes.drop i), nextId := t.advance n.id }

/-- takes the node at a position out -/
def takeOut (t : Tree) (i : Nat) : Tree :=
  match t.nodes[i]? with
  | none => t
  | some n =>
    let nodes := t.nodes.eraseIdx i
    { t with nodes, places := (t.places.erase n.id).putAll i (nodes.drop i) }

/-- changes the node of an id, keeping its place; `f` keeps the id -/
def modify (t : Tree) (id : NodeId) (f : Node → Node) : Except EditError Tree :=
  match t.position? id with
  | some i => .ok { t with nodes := t.nodes.modify i f }
  | none => .error (.missingNode id)

/-- refuses ids that leave no room for new ones -/
def checkRoom (id : NodeId) : Except EditError Unit := if maxId < id then .error (.idOutOfRange id) else .ok ()

/-- appends a node after asking whether its id and its parent are in order -/
def accept (t : Tree) (n : Node) : Except EditError Nat × Tree :=
  match checkRoom n.id, t.checkHolder n.parent with
  | .error e, _ => (.error e, t)
  | .ok (), .error e => (.error e, t)
  | .ok (), .ok () => (.ok t.nodes.length, t.push n)

/-- appends a node and tells its position. A node without an id gets a new one, which is spent even if the node is then
refused. -/
def add (t : Tree) (n : Node) : Except EditError Nat × Tree :=
  if n.id = 0 then t.reserve.2.accept { n with id := t.reserve.1 }
  else if t.contains n.id then (.error (.duplicateId n.id), t)
  else t.accept n

/-- appends nodes that carry ids of their own, whatever their parents -/
def pushAll (t : Tree) : List Node → Except EditError Tree
  | [] => .ok t
  | n :: rest =>
    if n.id = 0 then .error (.missingNode n.id)
    else if t.contains n.id then .error (.duplicateId n.id)
    else if maxId < n.id then .error (.idOutOfRange n.id)
    else (t.push n).pushAll rest

/-- refuses the first of some nodes whose parent cannot hold it or whose parents run in a ring -/
def checkHolders (t : Tree) : List Node → Except EditError Unit
  | [] => .ok ()
  | n :: rest =>
    match t.checkHolder n.parent with
    | .error e => .error e
    | .ok () => if t.isOnRing n.id then .error (.wouldCreateCycle n.id n.parent) else t.checkHolders rest

/-- the tree of a list of nodes with ids of their own; new ids start above all of them and not below `nextId` -/
def ofNodes (base : UInt64) (nodes : List Node) (nextId : UInt64) : Except EditError Tree := do
  let t ← (empty base).pushAll nodes
  if maxId + 1 < nextId then throw (.idOutOfRange nextId)
  let t := { t with nextId := max t.nextId nextId }
  t.checkHolders t.nodes
  pure t

end Tree

end ByteAtlas
