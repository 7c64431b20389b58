/-
Nodes and kinds as JSON. A kind is written by its name, and may also be read from an object with that name as its only
member and nothing in it. The fields from `arrayLen` on may be left out.
-/
import ByteAtlas.Node
import ByteAtlas.Json.Record

namespace ByteAtlas

def Kind.toJson (k : Kind) : Json := .ofString k.name

def Kind.ofJson? : Json → Option Kind
  | .text (some s) => ofName? s
  | .object [(some s, .null)] => ofName? s
  | _ => none

namespace Node

def fieldNames : List String :=
  ["id", "kind", "name", "parentId", "offset", "arrayLen", "elementKind", "structTypeName", "refId", "strLen",
    "collapsed"]

/-- the values of the fields, in the order of their names -/
def fieldValues (n : Node) : List Json :=
  [.ofWord n.id, n.kind.toJson, .ofString n.name, .ofWord n.parent, .ofWord n.offset, .ofWord n.arrayLen,
    n.elementKind.toJson, .ofString n.structName, .ofWord n.ref, .ofWord n.textLen, .bool n.collapsed]

def toJson (n : Node) : Json := .ofMembers (fieldNames.zip n.fieldValues)

def ofFields? : List (Option Json) → Option Node
  | [id, kind, name, parent, offset, arrayLen, elementKind, structName, ref, textLen, collapsed] => do
    pure {
      id := ← Json.required Json.word? id
      kind := ← Json.required Kind.ofJson? kind
      name := ← Json.required Json.text? name
      parent := ← Json.required Json.word? parent
      offset := ← Json.required Json.word? offset
      arrayLen := ← Json.optional 0 Json.word? arrayLen
      elementKind := ← Json.optional .hex8 Kind.ofJson? elementKind
      structName := ← Json.optional "" Json.text? structName
      ref := ← Json.optional 0 Json.word? ref
      textLen := ← Json.optional 0 Json.word? textLen
      collapsed := ← Json.optional false Json.bool? collapsed }
  | _ => none

def ofJson? (j : Json) : Option Node := (Json.fields? fieldNames j).bind ofFields?

end Node

end ByteAtlas
