/-
Declarations of structs in the notation of C: first the names, then a definition of each, with bytes of padding where
members leave gaps.
-/
import ByteAtlas.Declarations.Order
import ByteAtlas.Text.Digits

namespace ByteAtlas

def isIdentifierChar (c : Char) : Bool := c.isAlphanum || c == '_'

/-- a text made an identifier: other characters become underscores, and one goes in front of a digit or of nothing -/
def identifier (s : String) : String :=
  let cs := s.toList.map fun c => if isIdentifierChar c then c else '_'
  String.ofList <| match cs with
    | [] => ['_']
    | c :: _ => if c.isDigit then '_' :: cs else cs

/-- a number after `0x`, in upper-case digits -/
def hexNumber (n : UInt64) : String := "0x" ++ String.ofList (Text.upperHex 1 n.toNat)

/-- a number in four upper-case digits or more -/
def hexSuffix (n : UInt64) : String := String.ofList (Text.upperHex 4 n.toNat)

def bracketed (n : UInt64) : String := "[" ++ n.toNat.repr ++ "]"

/-- the type of a kind of fixed size, and what goes after the name -/
def Kind.declared : Kind → String × String
  | hex8 | uint8 => ("uint8_t", "")
  | hex16 | uint16 => ("uint16_t", "")
  | hex32 | uint32 => ("uint32_t", "")
  | hex64 | uint64 => ("uint64_t", "")
  | int8 => ("int8_t", "")
  | int16 => ("int16_t", "")
  | int32 => ("int32_t", "")
  | int64 => ("int64_t", "")
  | float => ("float", "")
  | double => ("double", "")
  | bool => ("bool", "")
  | pointer32 => ("uint32_t", "")
  | pointer64 => ("void*", "")
  | vec2 => ("float", "[2]")
  | vec3 => ("float", "[3]")
  | vec4 => ("float", "[4]")
  | mat4x4 => ("float", "[4][4]")
  | utf8 => ("char", "")
  | utf16 => ("char16_t", "")
  | padding | array | struct => ("uint8_t", "")

def Node.memberName (n : Node) : String := if n.name = "" then "field_" ++ hexSuffix n.offset else identifier n.name

namespace Tree

/-- the tag of a struct that a member declares, before it is made an identifier -/
def memberTag (t : Tree) (n : Node) : String :=
  if (t.children n.id).isEmpty then (t.typeNameOf n.ref).getD n.typeName else n.typeName

def memberText (t : Tree) (n : Node) : String :=
  let name := n.memberName
  match n.kind with
  | .pointer32 | .pointer64 =>
    match t.typeNameOf n.ref with
    | some pointee => "struct " ++ identifier pointee ++ "* " ++ name
    | none => "void* " ++ name
  | .struct => "struct " ++ identifier (t.memberTag n) ++ " " ++ name
  | .array =>
    if n.elementKind = .struct then
      "struct " ++ identifier (t.elementName n) ++ " " ++ name ++ bracketed n.arrayLen
    else n.elementKind.declared.1 ++ " " ++ name ++ bracketed n.arrayLen ++ n.elementKind.declared.2
  | .utf8 => "char " ++ name ++ bracketed n.textLen
  | .utf16 => "char16_t " ++ name ++ bracketed n.textLen
  | .padding => "uint8_t " ++ name ++ bracketed n.arrayLen
  | k => k.declared.1 ++ " " ++ name ++ k.declared.2

inductive Entry where
  /-- bytes that no member covers -/
  | gap (start length : UInt64)
  /-- a member, and whether it starts before the end of those above it -/
  | member (position : Nat) (overlaps : Bool)
  deriving DecidableEq, Repr

/-- lines for members in order, where those above them end at `cursor` -/
def entries (t : Tree) (cursor : UInt64) : List Nat → List Entry
  | [] => []
  | c :: rest =>
    let offset := t.offsetAt c
    let tail := .member c (offset < cursor) :: t.entries (max cursor (t.endAt c)) rest
    if cursor < offset then .gap cursor (offset - cursor) :: tail else tail

def entryText (t : Tree) : Entry → String
  | .gap start length => "    uint8_t pad_" ++ hexSuffix start ++ bracketed length ++ ";\n"
  | .member c overlaps =>
    match t.nodes[c]? with
    | none => ""
    | some n =>
      "    " ++ t.memberText n ++ "; // " ++ hexNumber n.offset ++
        (if overlaps then " overlaps previous field" else "") ++ "\n"

def definitionText (t : Tree) (i : Nat) : String :=
  match t.nodes[i]? with
  | none => ""
  | some n =>
    "// size: " ++ hexNumber (t.size i) ++ "\nstruct " ++ identifier n.typeName ++ " \x7b\n" ++
      String.join ((t.entries 0 (t.children n.id)).map t.entryText) ++ "\x7d;\n"

def tagAt (t : Tree) (i : Nat) : String := ((t.nodes[i]?).map fun n => identifier n.typeName).getD ""

/-- the texts of a list, each only where it comes first -/
def firstOnly : List String → List String → List String
  | _, [] => []
  | seen, s :: rest => if seen.contains s then firstOnly seen rest else s :: firstOnly (s :: seen) rest

def declarationsOf (t : Tree) (order : List Nat) : String :=
  String.join ((firstOnly [] (order.map t.tagAt)).map fun tag => "struct " ++ tag ++ ";\n") ++
    String.join (order.map fun i => "\n" ++ t.definitionText i)

/-- declarations of a struct and of all that it leads to; empty for anything else -/
def declarations (t : Tree) (root : NodeId) : String :=
  let start := (t.position? root).filter fun i => (t.nodes[i]?).any fun n => n.kind == .struct
  t.declarationsOf (t.declarationOrder start.toList)

/-- declarations of all root structs and of all that they lead to -/
def allDeclarations (t : Tree) : String := t.declarationsOf (t.declarationOrder t.structRoots)

end Tree

end ByteAtlas
