/-
Trees as text: a JSON record of the format's version, the base address, the next new id and the nodes. A text of a later
version is refused, and so is one that describes no tree.
-/
import ByteAtlas.Stored.Node
import ByteAtlas.Tree.Basic
import ByteAtlas.Json.Reader
import ByteAtlas.Json.Writer

namespace ByteAtlas

/-- why a stored tree cannot be read or written -/
inductive StoredError where
  /-- the file cannot be read or written -/
  | file
  /-- the text is no JSON, or not of this shape -/
  | malformed
  | invalid (reason : EditError)
  | unsupportedVersion (version : Nat)
  deriving DecidableEq, Repr

/-- what a user is told; nothing fixed for files and for malformed text -/
def StoredError.message? : StoredError → Option String
  | file => none
  | malformed => none
  | invalid reason => some ("invalid tree: " ++ reason.message)
  | unsupportedVersion version => some ("unsupported format version " ++ version.repr)

namespace Tree

def formatVersion : Nat := 1

def fieldNames : List String := ["version", "baseAddress", "nextId", "nodes"]

def toJson (t : Tree) : Json :=
  .ofMembers (fieldNames.zip
    [.ofNat formatVersion, .ofWord t.base, .ofWord t.nextId, .array (t.nodes.map Node.toJson)])

/-- what a stored text says, before asking whether it is a tree -/
structure Stored where
  version : Nat
  base : UInt64
  nextId : UInt64
  nodes : List Node
  deriving DecidableEq, Repr

def Stored.ofFields? : List (Option Json) → Option Stored
  | [version, base, nextId, nodes] => do
    pure {
      version := ← Json.optional formatVersion (Json.nat? (UInt32.size - 1)) version
      base := ← Json.optional 0 Json.word? base
      nextId := ← Json.optional 0 Json.word? nextId
      nodes := ← (← Json.required Json.items? nodes).mapM Node.ofJson? }
  | _ => none

def Stored.ofJson? (j : Json) : Option Stored := (Json.fields? fieldNames j).bind ofFields?

def Stored.tree (s : Stored) : Except StoredError Tree :=
  if formatVersion < s.version then .error (.unsupportedVersion s.version)
  else match ofNodes s.base s.nodes s.nextId with
    | .ok t => .ok t
    | .error e => .error (.invalid e)

def ofJson (j : Option Json) : Except StoredError Tree :=
  match j.bind Stored.ofJson? with
  | some s => s.tree
  | none => .error .malformed

def toText (t : Tree) : String := t.toJson.pretty

def ofText (s : String) : Except StoredError Tree := ofJson (Json.ofText? s)

end Tree

end ByteAtlas
