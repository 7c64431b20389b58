/-
Extents: how many bytes a node covers. A struct reaches as far as its furthest child; without children it has the size
of the definition it refers to. An array of structs is a row of its definition. Definitions that contain themselves
have no size there: the ids being measured are passed along, and one met again counts as zero.
-/
import ByteAtlas.Tree.Walk
import ByteAtlas.Tree.Address

namespace ByteAtlas.Tree

/-- the largest of some words, zero for none -/
def largest (ws : List UInt64) : UInt64 := ws.foldl max 0

/-- the position of what a node refers to, itself excepted -/
def target (t : Tree) (n : Node) : Option Nat := if n.ref = 0 ∨ n.ref = n.id then none else t.position? n.ref

/-- the distance between elements of an array, given the sizes of other nodes; an id that is being measured counts as
zero -/
def strideWith (t : Tree) (size : List NodeId → Nat → UInt64) (measuring : List NodeId) (n : Node) : UInt64 :=
  if n.elementKind ≠ .struct then n.elementKind.fixedSize.getD 0
  else if measuring.contains n.id then 0
  else ((t.target n).map (size (n.id :: measuring))).getD 0

/-- the size of the node at a position; what is nested deeper than `depth` counts as zero -/
def measure (t : Tree) : Nat → List NodeId → Nat → UInt64
  | 0, _, _ => 0
  | depth + 1, measuring, i =>
    match t.nodes[i]? with
    | none => 0
    | some n =>
      match n.kind with
      | .struct =>
        if measuring.contains n.id then 0
        else
          let inner := n.id :: measuring
          match t.children n.id with
          | [] => ((t.target n).map (measure t depth inner)).getD 0
          | cs => largest (cs.map fun c => Word.satAdd (t.offsetAt c) (measure t depth inner c))
      | .array => Word.satMul n.arrayLen (t.strideWith (measure t depth) measuring n)
      | _ => n.ownSize.getD 0

/-- deep enough for every tree: each level adds an id to those being measured -/
def depthBound (t : Tree) : Nat := t.nodes.length + 2

def size (t : Tree) (i : Nat) : UInt64 := t.measure t.depthBound [] i

def stride (t : Tree) (i : Nat) : UInt64 :=
  match t.nodes[i]? with
  | none => 0
  | some n => t.strideWith (t.measure t.depthBound) [] n

/-- the size of an id, zero if it is not there -/
def sizeById (t : Tree) (id : NodeId) : UInt64 := ((t.position? id).map t.size).getD 0

def addressOfElement (t : Tree) (i : Nat) (k : UInt64) : UInt64 := t.address i + k * t.stride i

/-- where the furthest child of an id ends, counted from its start -/
def extentOfChildren (t : Tree) (parent : NodeId) : UInt64 :=
  largest ((t.children parent).map fun c => Word.satAdd (t.offsetAt c) (t.size c))

end ByteAtlas.Tree
