/-
All definitions of a type name, and whether they agree.
-/
import ByteAtlas.Definition.Canonical

namespace ByteAtlas

/-- one of the definitions that trees have of a type name: the place of its tree among the other trees (none for the
tree itself), its root and its digest -/
structure Rival where
  origin : Option Nat
  id : NodeId
  digest : Bytes
  deriving DecidableEq, Repr

/-- a type name whose definitions do not agree -/
structure Disagreement where
  name : String
  rivals : List Rival
  deriving DecidableEq, Repr

namespace Tree

/-- the definition of a name in a tree -/
def rival? (t : Tree) (origin : Option Nat) (name : String) : Option Rival :=
  match t.rootNamed? name with
  | none => none
  | some id => (t.digest id).map fun d => ⟨origin, id, d⟩

def rivals (t : Tree) (others : List Tree) (name : String) : List Rival :=
  (t.rival? none name).toList ++
    others.zipIdx.filterMap fun (o, i) => o.rival? (some i) name

/-- the disagreement about a name: there are definitions with different digests -/
def disagreement? (t : Tree) (others : List Tree) (name : String) : Option Disagreement :=
  match t.rivals others name with
  | [] => none
  | first :: rest =>
    if rest.any fun r => r.digest != first.digest then some ⟨name, first :: rest⟩ else none

end Tree

end ByteAtlas
