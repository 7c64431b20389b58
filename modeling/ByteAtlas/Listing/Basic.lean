/-
Listings: a tree spread out into rows with addresses and sizes, as far as the tree alone decides them. References to
definitions are followed in place; a definition is not opened again inside itself. Main definition: `Tree.listing`.
-/
import ByteAtlas.Tree.Extent

namespace ByteAtlas

namespace Listing

inductive Role where
  | structHeader | field | arrayHeader | arrayElement | padding | footer | truncated
  deriving DecidableEq, Repr

structure Row where
  node : NodeId
  /-- how the value is shown; for an element, what the array consists of -/
  kind : Kind
  role : Role
  address : UInt64
  size : UInt64
  /-- levels above the row -/
  depth : Nat
  name : String
  typeName : String
  element : Option UInt64
  value : String
  deriving DecidableEq, Repr

structure Options where
  /-- elements shown of an array -/
  maxElements : UInt64
  /-- whether references to definitions are followed -/
  expand : Bool
  deriving DecidableEq, Repr

def Options.standard : Options := ⟨256, true⟩

end Listing

namespace Tree

def elementTypeName (t : Tree) (n : Node) : String :=
  if n.elementKind ≠ .struct then n.elementKind.name
  else if n.structName ≠ "" then n.structName
  else if n.ref = 0 then Kind.struct.name
  else ((t.find? n.ref).map (·.typeName)).getD Kind.struct.name

/-- the type of a node, as a row shows it -/
def typeText (t : Tree) (n : Node) : String :=
  let counted (stem : String) (count : UInt64) : String := stem ++ "[" ++ count.toNat.repr ++ "]"
  match n.kind with
  | .struct =>
    if n.structName = "" ∧ n.ref ≠ 0 then ((t.find? n.ref).map (·.typeName)).getD n.typeName else n.typeName
  | .array => counted (t.elementTypeName n) n.arrayLen
  | .utf8 | .utf16 => counted n.kind.name n.textLen
  | .padding => counted "Padding" n.arrayLen
  | .pointer32 | .pointer64 =>
    if n.ref = 0 then n.kind.name else ((t.find? n.ref).map fun p => p.typeName ++ "*").getD n.kind.name
  | k => k.name

def row (t : Tree) (n : Node) (role : Listing.Role) (address size : UInt64) (depth : Nat) : Listing.Row :=
  ⟨n.id, n.kind, role, address, size, depth, n.name, t.typeText n, none, ""⟩

def elementRow (t : Tree) (n : Node) (i address stride : UInt64) (depth : Nat) : Listing.Row :=
  ⟨n.id, n.elementKind, .arrayElement, address, stride, depth, "[" ++ i.toNat.repr ++ "]", t.elementTypeName n, some i,
    ""⟩

/-- the row in place of the elements that are not shown -/
def truncatedRow (n : Node) (rest address size : UInt64) (depth : Nat) : Listing.Row :=
  ⟨n.id, n.elementKind, .truncated, address, size, depth, "... " ++ rest.toNat.repr ++ " more", "", none, ""⟩

/-- the definition that stands for the inside of a node: a struct other than the node, what holds the node and the
definitions being opened -/
def opening (t : Tree) (o : Listing.Options) (opened : List NodeId) (n : Node) : Option NodeId :=
  if !o.expand || n.ref == 0 || n.ref == n.id || opened.contains n.ref || t.liesAbove n.ref n.id then none
  else if (t.find? n.ref).any fun d => d.kind == .struct then some n.ref else none

/-- rows of the elements of an array without children; `inside` lists the definition of an element at an address -/
def elementRows (t : Tree) (o : Listing.Options) (n : Node) (stride address : UInt64) (depth : Nat)
    (inside : UInt64 → List Listing.Row) : List Listing.Row :=
  let shown := min n.arrayLen o.maxElements
  let rest := n.arrayLen - shown
  ((List.range shown.toNat).flatMap fun k =>
    let i := UInt64.ofNat k
    t.elementRow n i (address + i * stride) stride depth :: inside (address + i * stride)) ++
  if shown < n.arrayLen then [truncatedRow n rest (address + shown * stride) (Word.satMul rest stride) depth] else []

/-- rows of all that an id holds, placed at an address; `rows` lists the node at a position in its place -/
def heldRows (t : Tree) (rows : Nat → UInt64 → Nat → List Listing.Row) (parent : NodeId) (address : UInt64)
    (depth : Nat) : List Listing.Row :=
  (t.children parent).flatMap fun c => rows c (address + t.offsetAt c) depth

/-- the rows of a container: its own, those inside and the closing one, or its own alone if it is folded. What is inside
is not listed then. -/
@[macro_inline]
def bracket (t : Tree) (n : Node) (role : Listing.Role) (address size : UInt64) (depth : Nat)
    (inside : List Listing.Row) : List Listing.Row :=
  t.row n role address size depth ::
    if n.collapsed then [] else inside ++ [t.row n .footer (address + size) 0 depth]

/-- rows of the node at a position, placed at an address, inside the definitions that are being opened; what is nested
deeper than `fuel` levels is left out -/
def block (t : Tree) (o : Listing.Options) : Nat → List NodeId → Nat → UInt64 → Nat → List Listing.Row
  | 0, _, _, _, _ => []
  | fuel + 1, opened, i, address, depth =>
    match t.nodes[i]? with
    | none => []
    | some n =>
      let size := t.size i
      let definition (address : UInt64) (depth : Nat) : List Listing.Row :=
        match t.opening o opened n with
        | some d => t.heldRows (block t o fuel (d :: opened)) d address depth
        | none => []
      match n.kind with
      | .struct =>
        t.bracket n .structHeader address size depth <|
          if (t.children n.id).isEmpty then definition address (depth + 1)
          else t.heldRows (block t o fuel opened) n.id address (depth + 1)
      | .array =>
        t.bracket n .arrayHeader address size depth <|
          if (t.children n.id).isEmpty then
            t.elementRows o n (t.stride i) address (depth + 1) fun element =>
              if n.elementKind = .struct then definition element (depth + 2) else []
          else t.heldRows (block t o fuel opened) n.id address (depth + 1)
      | .padding => [t.row n .padding address size depth]
      | _ => [t.row n .field address size depth]

/-- deep enough for every tree: at most one opening of each definition, and the tree's depth between two of them -/
def nestingBound (t : Tree) : Nat := (t.nodes.length + 1) * (t.nodes.length + 2)

def listing (t : Tree) (o : Listing.Options) : List Listing.Row :=
  t.roots.flatMap fun i => t.block o t.nestingBound [] i (t.address i) 0

end Tree

end ByteAtlas
