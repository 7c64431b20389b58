/-
Documents: a tree viewed against a source of bytes, with the history of its edits and the options of its listing.
-/
import ByteAtlas.History
import ByteAtlas.Listing.Values
import ByteAtlas.Stored.Tree
import ByteAtlas.Files

namespace ByteAtlas

structure Document (τ : Type) where
  session : Session τ
  /-- the file that the source was read from -/
  dataPath : Option String
  options : Listing.Options
  /-- what new types are named after -/
  newTypeName : String

namespace Document

variable {τ : Type}

/-- the name that new types get unless told otherwise -/
def standardTypeName : String := "NewClass"

/-- the label of new types -/
def instanceName : String := "instance"

/-- a document over a tree, viewing nothing -/
def ofTree (tree : Tree) : Document τ :=
  ⟨⟨⟨tree, .nothing⟩, .empty History.standardLimit⟩, none, .standard, standardTypeName⟩

def empty (base : UInt64) : Document τ := ofTree (Tree.empty base)

def tree (d : Document τ) : Tree := d.session.scene.tree

def source (d : Document τ) : Source τ := d.session.scene.source

def history (d : Document τ) : History := d.session.history

def withTree (d : Document τ) (tree : Tree) : Document τ :=
  { d with session := { d.session with scene := { d.session.scene with tree } } }

/-- the document with its source in another state -/
def withSource (d : Document τ) (source : Source τ) : Document τ :=
  { d with session := { d.session with scene := { d.session.scene with source } } }

def withLimit (d : Document τ) (limit : UInt64) : Document τ :=
  { d with session := { d.session with history := d.session.history.withLimit limit } }

def summary (d : Document τ) : String :=
  "Document \x7b nodes: " ++ d.tree.nodes.length.repr ++ ", base_address: " ++ d.tree.base.toNat.repr ++ ", source: " ++
    Text.quote d.source.name ++ ", data_path: " ++
    ((d.dataPath.map fun p => "Some(" ++ Text.quote p ++ ")").getD "None") ++ ", undo: " ++
    d.history.done.length.repr ++ ", .. \x7d"

/-! ## Source -/

/-- maps the source at the tree's base, unless its bytes have addresses of their own -/
def alignSource (d : Document τ) : Document τ :=
  if d.source.isLive then d else d.withSource (d.source.rebase d.tree.base)

/-- views the tree against a source; the history stays -/
def attach (d : Document τ) (s : Source τ) : Document τ := { d.withSource s with dataPath := none }.alignSource

/-- moves the tree to a base, and the source with it -/
def relocate (d : Document τ) (base : UInt64) : Document τ := (d.withTree { d.tree with base }).alignSource

def attachBytes (d : Document τ) (bs : Bytes) : Document τ := d.attach (.buffer ⟨bs, "", 0⟩)

def detach (d : Document τ) : Document τ := d.attach .nothing

/-! ## Files -/

end Document

/-- a source of the bytes of a file, named after it -/
def Source.ofFile {τ : Type} (fs : Files) (path : String) : Except SourceError (Source τ) :=
  match fs.read path with
  | .ok bs => .ok (.buffer ⟨bs, Path.fileName path, 0⟩)
  | .error _ => .error .file

def Tree.load (fs : Files) (path : String) : Except StoredError Tree :=
  match fs.read path with
  | .error _ => .error .file
  | .ok bs =>
    match Text.Utf8.decode bs with
    | none => .error .file
    | some cs => Tree.ofText (String.ofList cs)

def Tree.save (t : Tree) (fs : Files) (path : String) : Except StoredError Files :=
  match fs.write path (Text.Utf8.encode t.toText.toList) with
  | .ok fs => .ok fs
  | .error _ => .error .file

namespace Document

variable {τ : Type}

def attachFile (d : Document τ) (fs : Files) (path : String) : Except SourceError (Document τ) :=
  match Source.ofFile fs path with
  | .ok s => .ok { d.attach s with dataPath := some path }
  | .error e => .error e

def load (fs : Files) (path : String) : Except StoredError (Document τ) :=
  match Tree.load fs path with
  | .ok t => .ok (ofTree t)
  | .error e => .error e

/-! ## Listing -/

/-- the listing without values -/
def listing (d : Document τ) : List Listing.Row := d.tree.listing d.options

variable [Transport τ]

/-- the listing with values from the source -/
def view (d : Document τ) : List Listing.Row × Document τ :=
  let (rows, s) := Listing.Row.fillAll d.source d.listing
  (rows, d.withSource s)

/-! ## Edits -/

def perform (d : Document τ) (e : Edit) : Outcome (Document τ) Unit :=
  let (r, session) := d.session.perform e
  (r, { d with session })

/-- takes the newest edit back; tells whether there was one -/
def undo (d : Document τ) : Outcome (Document τ) Bool :=
  let (r, session) := d.session.undo
  (r, { d with session })

/-- makes the edit again that was taken back last; tells whether there was one -/
def redo (d : Document τ) : Outcome (Document τ) Bool :=
  let (r, session) := d.session.redo
  (r, { d with session })

end Document

end ByteAtlas
