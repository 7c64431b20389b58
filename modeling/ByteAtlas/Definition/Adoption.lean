/-
Bringing type definitions from other trees. A name is looked for among the root structs of the tree itself, then in the
other trees in order. A definition found elsewhere is copied with new ids; references inside it follow the copy, those
that leave it are looked up by name in turn, which may bring further definitions along. Names that are being brought
along count as found, so definitions that refer to each other come to an end.
-/
import ByteAtlas.Definition.Canonical

namespace ByteAtlas

/-- what a type name comes to -/
inductive Resolution where
  /-- the tree has it -/
  | present (id : NodeId)
  /-- it is copied from one of the other trees, which is told by its place among them -/
  | copied (id : NodeId) (origin : Nat)
  | unresolved
  deriving DecidableEq, Repr

/-- the root struct that a name comes to -/
def Resolution.id? : Resolution → Option NodeId
  | present id => some id
  | copied id _ => some id
  | unresolved => none

/-- new ids for old ones, in order, and the tree that has given them out -/
def Tree.renumber (t : Tree) : List NodeId → List (NodeId × NodeId) × Tree
  | [] => ([], t)
  | id :: rest =>
    let (fresh, t) := t.reserve
    let (pairs, t) := t.renumber rest
    ((id, fresh) :: pairs, t)

namespace Adoption

/-- work in progress: the tree that gives out ids, the names being brought along, the new nodes, the names not found -/
structure Draft where
  tree : Tree
  planned : List (String × NodeId)
  nodes : List Node
  missing : List String
  deriving DecidableEq, Repr

/-- the first of some trees that has a root struct of a name: its place, the tree, the id -/
def firstDefining (name : String) : Nat → List Tree → Option (Nat × Tree × NodeId)
  | _, [] => none
  | i, t :: rest =>
    match t.rootNamed? name with
    | some id => some (i, t, id)
    | none => firstDefining name (i + 1) rest

/-- a node of a definition under its new ids. References that leave the definition are cleared. -/
def recast (ids : List (NodeId × NodeId)) (isFirst : Bool) (n : Node) : Node :=
  { n with
    id := (ids.lookup n.id).getD 0
    parent := if isFirst then 0 else (ids.lookup n.parent).getD 0
    ref := if n.ref = 0 then 0 else (ids.lookup n.ref).getD 0 }

/-- the type name of a reference that leaves a definition -/
def outward (t : Tree) (ids : List (NodeId × NodeId)) (n : Node) : Option String :=
  if n.ref = 0 ∨ (ids.lookup n.ref).isSome then none else t.typeNameOf n.ref

/-- the definition under its new ids, and the references that leave it: the place of the node and the name looked for -/
def copyOf (t : Tree) (ids : List (NodeId × NodeId)) (start : Nat) (ns : List Node) : List Node × List (Nat × String) :=
  (ns.zipIdx.map fun (n, k) => recast ids (k == 0) n,
    ns.zipIdx.filterMap fun (n, k) => (outward t ids n).map fun name => (start + k, name))

/-- points the new node at a place to an id -/
def Draft.link (d : Draft) (place : Nat) (id : NodeId) : Draft :=
  { d with nodes := d.nodes.modify place fun n => { n with ref := id } }

def Draft.miss (d : Draft) (name : String) : Draft :=
  if d.missing.contains name then d else { d with missing := d.missing ++ [name] }

/-- looks a name up and brings its definition along. Each level of nesting brings a further name of the other trees, so
`depth` runs out for no list of trees that has fewer nodes. -/
def resolve (others : List Tree) : Nat → Draft → String → Resolution × Draft
  | 0, d, _ => (.unresolved, d)
  | depth + 1, d, name =>
    match d.tree.rootNamed? name, d.planned.lookup name, firstDefining name 0 others with
    | some id, _, _ => (.present id, d)
    | none, some id, _ => (.present id, d)
    | none, none, none => (.unresolved, d)
    | none, none, some (origin, t, root) =>
      let ns := t.definition root
      let (ids, tree) := d.tree.renumber (ns.map (·.id))
      let fresh := (ids.lookup root).getD 0
      let (copies, leaving) := copyOf t ids d.nodes.length ns
      let d := { d with tree, planned := (name, fresh) :: d.planned, nodes := d.nodes ++ copies }
      let d := leaving.foldl (fun d (place, target) =>
        match resolve others depth d target with
        | (r, d) =>
          match r.id? with
          | some id => d.link place id
          | none => d.miss target) d
      (.copied fresh origin, d)

end Adoption

/-- the nodes to insert for a name, what the name comes to, and the names that nothing defines -/
structure Adoption where
  resolution : Resolution
  nodes : List Node
  unresolved : List String
  deriving DecidableEq, Repr

namespace Tree

/-- plans to bring a name along; of the tree only the ids given out change -/
def planAdoption (t : Tree) (others : List Tree) (name : String) : Adoption × Tree :=
  let depth := (others.flatMap (·.nodes)).length + 2
  let (r, d) := Adoption.resolve others depth ⟨t, [], [], []⟩ name
  (⟨r, d.nodes, d.missing⟩, d.tree)

/-- brings a name along at once, without asking whether the new nodes fit -/
def adoptNow (t : Tree) (others : List Tree) (name : String) : Resolution × Tree :=
  let (plan, t) := t.planAdoption others name
  (plan.resolution, plan.nodes.foldl push t)

end Tree

end ByteAtlas
