/-
Walking a tree: children in order of their offsets, whole subtrees, ancestors, and names that are still free.
-/
import ByteAtlas.Tree.Basic

namespace ByteAtlas.Tree

/-- puts a position in front of the first one whose key is not smaller -/
def insertByKey (key : Nat → UInt64) (i : Nat) : List Nat → List Nat
  | [] => [i]
  | j :: rest => if key i ≤ key j then i :: j :: rest else j :: insertByKey key i rest

/-- positions in order of their keys; equal keys keep their order -/
def sortByKey (key : Nat → UInt64) : List Nat → List Nat
  | [] => []
  | i :: rest => insertByKey key i (sortByKey key rest)

def offsetAt (t : Tree) (i : Nat) : UInt64 := ((t.nodes[i]?).map (·.offset)).getD 0

/-- positions of the nodes that an id holds, in storage order -/
def heldBy (t : Tree) (parent : NodeId) : List Nat :=
  (List.range t.nodes.length).filter fun i => (t.nodes[i]?).any fun n => n.parent == parent

/-- positions of the nodes that an id holds, by offset and then by storage order -/
def children (t : Tree) (parent : NodeId) : List Nat := sortByKey t.offsetAt (t.heldBy parent)

def roots (t : Tree) : List Nat := t.children 0

/-- empties a stack of positions in at most so many steps: each one is listed and replaced by its children, unless its
id has been seen -/
def unstack (t : Tree) : Nat → List Nat → List NodeId → List Nat
  | 0, _, _ => []
  | _ + 1, [], _ => []
  | steps + 1, i :: stack, seen =>
    match t.nodes[i]? with
    | none => unstack t steps stack seen
    | some n =>
      if seen.contains n.id then unstack t steps stack seen
      else i :: unstack t steps (t.children n.id ++ stack) (n.id :: seen)

/-- positions of a node and all below it, parents before children. Every position is put on the stack at most once. -/
def subtree (t : Tree) (id : NodeId) : List Nat :=
  match t.position? id with
  | none => []
  | some i => t.unstack (t.nodes.length + 2) [i] []

/-- whether `above` is met on so many steps up from `cur` -/
def meets (t : Tree) (above : NodeId) : Nat → NodeId → Bool
  | 0, _ => false
  | steps + 1, cur =>
    if cur = above then true
    else match t.find? cur with
      | none => false
      | some n => if n.parent = 0 then false else meets t above steps n.parent

/-- whether a node is another one or lies above it -/
def liesAbove (t : Tree) (above id : NodeId) : Bool := t.meets above (t.nodes.length + 1) id

def structNames (t : Tree) : List String :=
  (t.nodes.filter fun n => n.kind == .struct && n.structName != "").map (·.structName)

/-- the first of the names `stem ++ i`, `stem ++ (i + 1)`, … that is not taken, after at most so many others -/
def firstFree (taken : List String) (stem : String) : Nat → Nat → String
  | 0, _ => stem
  | tries + 1, i =>
    let candidate := stem ++ i.repr
    if taken.contains candidate then firstFree taken stem tries (i + 1) else candidate

/-- the stem itself if no struct is named so, or else the stem with the first number that makes it new. One number more
than there are names is enough. -/
def freeName (t : Tree) (stem : String) : String :=
  let taken := t.structNames
  if taken.contains stem then firstFree taken stem (taken.length + 1) 1 else stem

end ByteAtlas.Tree
