/-
What a user can do to a document. Every operation is one step of the history, and one that is refused leaves the nodes,
the bytes and the history as they were; only new ids may have been spent.
-/
import ByteAtlas.Document.Basic
import ByteAtlas.Value.Read
import ByteAtlas.Definition.Adoption
import ByteAtlas.Definition.Rivals

namespace ByteAtlas.Document

variable {τ : Type} [Transport τ]

/-- goes on with the node of an id -/
def withNode {α : Type} (d : Document τ) (id : NodeId) (k : Node → Outcome (Document τ) α) : Outcome (Document τ) α :=
  match d.tree.find? id with
  | some n => k n
  | none => (.error (.missingNode id), d)

/-- makes an edit and answers with something when it is done -/
def performFor {α : Type} (d : Document τ) (e : Edit) (a : α) : Outcome (Document τ) α :=
  match d.perform e with
  | (.ok (), d) => (.ok a, d)
  | (.error err, d) => (.error err, d)

/-! ## Values -/

/-- the bytes of a text for a node whose bytes can be written: the address, what is there, what is to be there -/
def encodeText (d : Document τ) (id : NodeId) (text : String) : Outcome (Document τ) (UInt64 × Bytes × Bytes) :=
  match d.tree.position? id, d.tree.find? id with
  | some i, some n =>
    if !n.kind.hasValue then (.error (.notEditable id), d)
    else
      let address := d.tree.address i
      let length := d.tree.size i
      let refused := EditError.writeFailed address length.toNat
      if !d.source.isWritable then (.error refused, d)
      else
        let (available, s) := d.source.size
        let d := d.withSource s
        if available < length then (.error refused, d)
        else match n.kind.readValue text length.toNat with
          | .error e => (.error (.invalidValue e), d)
          | .ok new =>
            let (old, s) := d.source.read address length.toNat
            let d := d.withSource s
            match old with
            | none => (.error refused, d)
            | some old => (.ok (address, old, new), d)
  | _, _ => (.error (.missingNode id), d)

/-- writes the bytes that a text stands for; bytes that are there already make no step -/
def writeText (d : Document τ) (id : NodeId) (text : String) : Outcome (Document τ) Unit :=
  match d.encodeText id text with
  | (.error e, d) => (.error e, d)
  | (.ok (address, old, new), d) => if old = new then (.ok (), d) else d.perform (.write address old new)

/-! ## Fields of a node -/

def rename (d : Document τ) (id : NodeId) (name : String) : Outcome (Document τ) Unit :=
  d.withNode id fun n => d.perform (.rename id n.name name)

def nameStruct (d : Document τ) (id : NodeId) (name : String) : Outcome (Document τ) Unit :=
  d.withNode id fun n => d.perform (.nameStruct id n.structName name)

/-- changes the kind; lengths stay -/
def reshape (d : Document τ) (id : NodeId) (kind : Kind) : Outcome (Document τ) Unit :=
  d.withNode id fun n => d.perform (.reshape id n.shape { n.shape with kind })

def makeArray (d : Document τ) (id : NodeId) (elementKind : Kind) (arrayLen : UInt64) : Outcome (Document τ) Unit :=
  d.withNode id fun n => d.perform (.reshape id n.shape { n.shape with kind := .array, elementKind, arrayLen })

/-- changes the characters of a text, the bytes of padding or the elements of an array -/
def resize (d : Document τ) (id : NodeId) (length : UInt64) : Outcome (Document τ) Unit :=
  d.withNode id fun n =>
    match n.kind with
    | .utf8 | .utf16 => d.perform (.reshape id n.shape { n.shape with textLen := length })
    | .padding | .array => d.perform (.reshape id n.shape { n.shape with arrayLen := length })
    | _ => (.error (.notEditable id), d)

def move (d : Document τ) (id parent : NodeId) (offset : UInt64) : Outcome (Document τ) Unit :=
  d.withNode id fun n => d.perform (.move id (n.parent, n.offset) (parent, offset))

def shift (d : Document τ) (id : NodeId) (offset : UInt64) : Outcome (Document τ) Unit :=
  d.withNode id fun n => d.move id n.parent offset

def toggleFold (d : Document τ) (id : NodeId) : Outcome (Document τ) Unit :=
  d.withNode id fun n => d.perform (.fold id n.collapsed !n.collapsed)

def canRefer (n : Node) : Bool := n.kind.isPointer || n.kind.canHold

/-- makes a node refer to a struct, or to nothing -/
def refer (d : Document τ) (id target : NodeId) : Outcome (Document τ) Unit :=
  d.withNode id fun n =>
    if !canRefer n then (.error (.notEditable id), d)
    else if target = 0 then d.perform (.refer id n.ref target)
    else d.withNode target fun t =>
      if t.kind = .struct then d.perform (.refer id n.ref target) else (.error (.notEditable target), d)

/-! ## Adding and removing nodes -/

/-- adds a node, by default behind all that its parent holds, and tells its id. A struct on the outermost level gets a
name that no struct has. -/
def insert (d : Document τ) (parent : NodeId) (offset : Option UInt64) (kind : Kind) (name : String) :
    Outcome (Document τ) NodeId :=
  match d.tree.checkHolder parent with
  | .error e => (.error e, d)
  | .ok () =>
    let structName := if kind = .struct ∧ parent = 0 then d.tree.freeName d.newTypeName else ""
    let n := { Node.field parent (offset.getD (d.tree.extentOfChildren parent)) kind name with structName }
    let (id, tree) := d.tree.reserve
    (d.withTree tree).performFor (.insert [{ n with id }]) id

/-- adds a struct without members on the outermost level and tells its id -/
def newStruct (d : Document τ) : Outcome (Document τ) NodeId :=
  let n := Node.rootStruct instanceName (d.tree.freeName d.newTypeName)
  let (id, tree) := d.tree.reserve
  (d.withTree tree).performFor (.insert [{ n with id }]) id

/-- removes nodes and all that they hold; removing none makes no step -/
def remove (d : Document τ) (ids : List NodeId) : Outcome (Document τ) Unit :=
  if ids.isEmpty then (.ok (), d)
  else match Edit.removal d.tree ids with
    | .error e => (.error e, d)
    | .ok e => d.perform e

/-- the nodes of a subtree under new ids; references into the subtree follow, others stay -/
def recast (ids : List (NodeId × NodeId)) (n : Node) : Node :=
  let follow (id : NodeId) : NodeId := (ids.lookup id).getD id
  { n with id := follow n.id, parent := follow n.parent, ref := follow n.ref }

/-- copies a node and all that it holds to right behind it, and tells the id of the copy. A copy of a struct on the
outermost level gets a name that no struct has. -/
def copy (d : Document τ) (id : NodeId) : Outcome (Document τ) NodeId :=
  match d.tree.position? id with
  | none => (.error (.missingNode id), d)
  | some i =>
    let length := d.tree.size i
    let ns := d.tree.definition id
    let (ids, tree) := d.tree.renumber (ns.map (·.id))
    let copies :=
      match ns.map (recast ids) with
      | [] => []
      | first :: rest =>
        let first := { first with offset := Word.satAdd first.offset length }
        (if first.isRoot && first.kind == .struct then { first with structName := tree.freeName first.typeName }
          else first) :: rest
    (d.withTree tree).performFor (.insert copies) ((ids.lookup id).getD 0)

/-! ## Types of other trees -/

/-- finds a type by name, or brings it along from other trees -/
def adopt (d : Document τ) (name : String) (others : List Tree) : Outcome (Document τ) Resolution :=
  let (plan, tree) := d.tree.planAdoption others name
  let d := d.withTree tree
  if plan.nodes.isEmpty then (.ok plan.resolution, d) else d.performFor (.insert plan.nodes) plan.resolution

/-- finds a type by name, or brings it along, and makes a node refer to it. A name that nothing defines changes
nothing. -/
def referTo (d : Document τ) (id : NodeId) (name : String) (others : List Tree) :
    Outcome (Document τ) Resolution :=
  d.withNode id fun n =>
    if !canRefer n then (.error (.notEditable id), d)
    else
      let (plan, tree) := d.tree.planAdoption others name
      let d := d.withTree tree
      match plan.resolution.id? with
      | none => (.ok .unresolved, d)
      | some target =>
        let steps := (if plan.nodes.isEmpty then [] else [.insert plan.nodes]) ++ [Edit.refer id n.ref target]
        d.performFor (.batch steps) plan.resolution

end ByteAtlas.Document
