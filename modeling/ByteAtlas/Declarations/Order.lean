/-
The order in which structs are declared: a struct comes after those it contains, and what it only points at may come
later.
-/
import ByteAtlas.Members

namespace ByteAtlas.Tree

/-- structs met so far and, of those, the positions of the ones that are in order -/
structure Survey where
  met : List NodeId
  order : List Nat
  deriving DecidableEq, Repr

/-- the position of the struct that a node refers to -/
def referredStruct (t : Tree) (n : Node) : Option Nat :=
  if n.ref = 0 then none
  else (t.position? n.ref).filter fun i => (t.nodes[i]?).any fun d => d.kind == .struct

/-- positions of the structs that a member contains -/
def contained (t : Tree) (c : Nat) : List Nat :=
  match t.nodes[c]? with
  | none => []
  | some n =>
    match n.kind with
    | .struct => if (t.children n.id).isEmpty then (t.referredStruct n).toList else [c]
    | .array => (t.referredStruct n).toList
    | _ => []

/-- positions of the structs that a member points at -/
def pointedAt (t : Tree) (c : Nat) : List Nat :=
  match t.nodes[c]? with
  | none => []
  | some n => if n.kind.isPointer then (t.referredStruct n).toList else []

/-- surveys the struct at a position and those it leads to, to a nesting of `depth` -/
def survey (t : Tree) : Nat → Survey → Nat → Survey
  | 0, s, _ => s
  | depth + 1, s, i =>
    match t.nodes[i]? with
    | none => s
    | some n =>
      if s.met.contains n.id then s
      else
        let cs := t.children n.id
        let s := (cs.flatMap t.contained).foldl (survey t depth) { s with met := n.id :: s.met }
        let s := { s with order := s.order ++ [i] }
        (cs.flatMap t.pointedAt).foldl (survey t depth) s

/-- positions of structs and of all that they lead to, in order. Each level of nesting meets a new id. -/
def declarationOrder (t : Tree) (from' : List Nat) : List Nat :=
  (from'.foldl (t.survey (t.nodes.length + 1)) ⟨[], []⟩).order

end ByteAtlas.Tree
