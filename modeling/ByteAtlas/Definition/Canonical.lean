/-
The canonical form of a definition: what two trees have to share for their definitions to be the same. Nodes are listed
parents first; ids become positions in that list, and references that leave it become type names. Where the definition
stands, what it is called and what is folded do not count. Main definitions: `Tree.items`, `Tree.canonicalBytes`,
`Tree.digest`.
-/
import ByteAtlas.Cbor
import ByteAtlas.Digest.Blake3
import ByteAtlas.Tree.Walk

namespace ByteAtlas

namespace Definition

/-- what a reference comes to within a definition -/
inductive Target where
  /-- there is none, or it names nothing -/
  | none
  | inside (position : Nat)
  | named (typeName : String)
  deriving DecidableEq, Repr

/-- one node of a canonical form -/
structure Item where
  parent : Option Nat
  kind : Kind
  name : String
  offset : UInt64
  arrayLen : UInt64
  elementKind : Kind
  structName : String
  textLen : UInt64
  target : Target
  deriving DecidableEq, Repr

def Target.bytes : Target → Bytes
  | none => Cbor.text "None"
  | inside position => Cbor.map [("Internal", Cbor.nat position)]
  | named typeName => Cbor.map [("Named", Cbor.text typeName)]

def Item.bytes (i : Item) : Bytes :=
  Cbor.map [("parent", (i.parent.map Cbor.nat).getD Cbor.null), ("kind", Cbor.text i.kind.name),
    ("name", Cbor.text i.name), ("offset", Cbor.nat i.offset.toNat), ("array_len", Cbor.nat i.arrayLen.toNat),
    ("element_kind", Cbor.text i.elementKind.name), ("type_name", Cbor.text i.structName),
    ("str_len", Cbor.nat i.textLen.toNat), ("target", i.target.bytes)]

end Definition

namespace Tree

/-- the type name of a node, none for the id zero and for one that is not there -/
def typeNameOf (t : Tree) (id : NodeId) : Option String :=
  if id = 0 then none else (t.find? id).map (·.typeName)

/-- the nodes of a definition, parents first -/
def definition (t : Tree) (root : NodeId) : List Node := (t.subtree root).filterMap fun i => t.nodes[i]?

/-- what a reference comes to in a definition whose nodes have these ids in this order -/
def targetIn (t : Tree) (ids : List NodeId) (ref : NodeId) : Definition.Target :=
  if ref = 0 then .none
  else match ids.idxOf? ref with
    | some p => .inside p
    | none =>
      match t.typeNameOf ref with
      | some name => .named name
      | none => .none

def itemOf (t : Tree) (ids : List NodeId) (n : Node) : Definition.Item :=
  ⟨ids.idxOf? n.parent, n.kind, n.name, n.offset, n.arrayLen, n.elementKind, n.structName, n.textLen,
    t.targetIn ids n.ref⟩

/-- the canonical form of a definition; its first item says nothing of where the definition stands -/
def items (t : Tree) (root : NodeId) : List Definition.Item :=
  let ns := t.definition root
  let ids := ns.map (·.id)
  match ns with
  | [] => []
  | first :: rest => { t.itemOf ids first with parent := none, name := "", offset := 0 } :: rest.map (t.itemOf ids)

/-- the canonical form as bytes, none for an id that is not there -/
def canonicalBytes (t : Tree) (root : NodeId) : Option Bytes :=
  match t.items root with
  | [] => none
  | is => some (Cbor.list (is.map Definition.Item.bytes))

def digest (t : Tree) (root : NodeId) : Option Bytes := (t.canonicalBytes root).map Blake3.digest

end Tree

end ByteAtlas
