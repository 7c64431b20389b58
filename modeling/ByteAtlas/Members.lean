/-
Members of a definition as an exporter sees them: single nodes, and raw bytes that follow each other gathered into runs.
-/
import ByteAtlas.Definition.Canonical
import ByteAtlas.Tree.Extent

namespace ByteAtlas

structure RawRun where
  /-- positions of the nodes, by offset -/
  nodes : List Nat
  offset : UInt64
  /-- bytes from the start of the first node to the end of the last -/
  size : UInt64
  /-- the label of a node alone -/
  name : Option String
  deriving DecidableEq, Repr

inductive Member where
  | node (position : Nat)
  | raw (run : RawRun)
  deriving DecidableEq, Repr

namespace Tree

/-- positions of the root structs, by offset -/
def structRoots (t : Tree) : List Nat := t.roots.filter fun i => (t.nodes[i]?).any fun n => n.kind == .struct

def childrenAt (t : Tree) (i : Nat) : List Nat := ((t.nodes[i]?).map fun n => t.children n.id).getD []

def isRawAt (t : Tree) (i : Nat) : Bool := (t.nodes[i]?).any fun n => n.kind.isRaw

/-- where the node at a position ends, counted from the start of its parent -/
def endAt (t : Tree) (i : Nat) : UInt64 := Word.satAdd (t.offsetAt i) (t.size i)

/-- how far a run that has come to `stop` goes on: positions of raw nodes that do not start before the end of the one
before them, the end of the last, and what is left -/
def extendRun (t : Tree) (stop : UInt64) : List Nat → List Nat × UInt64 × List Nat
  | [] => ([], stop, [])
  | i :: rest =>
    if t.isRawAt i && stop ≤ t.offsetAt i then
      let (run, stop, left) := t.extendRun (t.endAt i) rest
      (i :: run, stop, left)
    else ([], stop, i :: rest)

def labelAt (t : Tree) (i : Nat) : Option String := ((t.nodes[i]?).map (·.name)).filter (· != "")

/-- members made of so many positions at most -/
def gather (t : Tree) : Nat → List Nat → List Member
  | 0, _ => []
  | _ + 1, [] => []
  | fuel + 1, i :: rest =>
    if t.isRawAt i then
      let (run, stop, left) := t.extendRun (t.endAt i) rest
      let name := if run.isEmpty then t.labelAt i else none
      .raw ⟨i :: run, t.offsetAt i, stop - t.offsetAt i, name⟩ :: gather t fuel left
    else .node i :: gather t fuel rest

def members (t : Tree) (i : Nat) : List Member := t.gather (t.childrenAt i).length (t.childrenAt i)

def pointeeName (t : Tree) (i : Nat) : Option String :=
  match t.nodes[i]? with
  | none => none
  | some n => if n.kind.isPointer then t.typeNameOf n.ref else none

/-- what an array consists of, for a declaration -/
def elementName (t : Tree) (n : Node) : String :=
  if n.elementKind = .struct ∧ n.structName ≠ "" then n.structName
  else (t.typeNameOf n.ref).getD n.elementKind.name

end Tree

/-- the size of a node alone, zero where others decide it -/
def Node.plainSize (n : Node) : UInt64 := n.ownSize.getD 0

end ByteAtlas
