/-
Nodes: one element of the description of a block of memory.
-/
import ByteAtlas.Kind
import ByteAtlas.Text.Digits

namespace ByteAtlas

/-- names a node within its tree; zero names none -/
abbrev NodeId := UInt64

def showId (id : NodeId) : String := "#" ++ id.toNat.repr

/-- one element of a tree. Which of the fields past `offset` mean something depends on the kind. -/
structure Node where
  /-- zero asks the tree for a new one -/
  id : NodeId
  kind : Kind
  /-- label; several nodes may share one -/
  name : String
  /-- the struct or array that holds the node, zero for a root -/
  parent : NodeId
  /-- bytes from the start of the parent -/
  offset : UInt64
  /-- elements of an array, bytes of padding -/
  arrayLen : UInt64
  /-- what an array consists of -/
  elementKind : Kind
  /-- name by which other nodes find a struct -/
  structName : String
  /-- what a pointer points at, an embedded struct is, or the elements of an array are -/
  ref : NodeId
  /-- characters of a text -/
  textLen : UInt64
  /-- whether the listing folds the node -/
  collapsed : Bool
  deriving DecidableEq, Repr

namespace Node

/-- a node of a kind that stands for itself -/
def ofKind (kind : Kind) (name : String) : Node := ⟨0, kind, name, 0, 0, 0, .hex8, "", 0, 0, false⟩

def field (parent : NodeId) (offset : UInt64) (kind : Kind) (name : String) : Node :=
  { ofKind kind name with parent, offset }

def rootStruct (name structName : String) : Node := { ofKind .struct name with structName }

def array (parent : NodeId) (offset : UInt64) (name : String) (elementKind : Kind) (arrayLen : UInt64) : Node :=
  { field parent offset .array name with arrayLen, elementKind }

def text (parent : NodeId) (offset : UInt64) (kind : Kind) (name : String) (textLen : UInt64) : Node :=
  { field parent offset kind name with textLen }

def isRoot (n : Node) : Bool := n.parent == 0

/-- the name as a type: that of the struct, or else the label -/
def typeName (n : Node) : String := if n.structName = "" then n.name else n.structName

/-- the size that the node alone decides: none for structs and for arrays of structs -/
def ownSize (n : Node) : Option UInt64 :=
  match n.kind with
  | .utf8 => some n.textLen
  | .utf16 => some (Word.satMul n.textLen 2)
  | .padding => some n.arrayLen
  | .array => if n.elementKind = .struct then none else some (Word.satMul n.arrayLen (n.elementKind.fixedSize.getD 0))
  | .struct => none
  | k => k.fixedSize

end Node

end ByteAtlas
