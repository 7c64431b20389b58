/-
Workspaces: the open documents and the preferences that new ones start from. Types are brought from one document to
another by name.
-/
import ByteAtlas.Document.Edits
import ByteAtlas.Preferences

namespace ByteAtlas

structure Workspace (τ : Type) where
  documents : List (Document τ)
  preferences : Preferences

inductive WorkspaceError where
  | noSuchDocument (index : Nat)
  | edit (reason : EditError)
  | stored (reason : StoredError)
  deriving DecidableEq, Repr

def WorkspaceError.message? : WorkspaceError → Option String
  | noSuchDocument index => some ("no document at index " ++ index.repr)
  | edit reason => some reason.message
  | stored reason => reason.message?

namespace Workspace

variable {τ : Type}

def empty (preferences : Preferences) : Workspace τ := ⟨[], preferences⟩

/-- takes new preferences; open documents follow in how much history they keep and how they are listed -/
def setPreferences (w : Workspace τ) (p : Preferences) : Workspace τ :=
  ⟨w.documents.map fun d => { d.withLimit p.historyLimit with options := p.listing }, p⟩

/-- opens a document and tells its place -/
def add (w : Workspace τ) (d : Document τ) : Nat × Workspace τ :=
  (w.documents.length, { w with documents := w.documents ++ [d] })

def create (w : Workspace τ) : Nat × Workspace τ :=
  w.add (w.preferences.configure (Document.empty w.preferences.base))

def load (w : Workspace τ) (fs : Files) (path : String) : Except WorkspaceError (Nat × Workspace τ) :=
  match Document.load fs path with
  | .ok d => .ok (w.add (w.preferences.configure d))
  | .error e => .error (.stored e)

/-- closes a document; those after it move up -/
def close (w : Workspace τ) (i : Nat) : Option (Document τ) × Workspace τ :=
  (w.documents[i]?, { w with documents := w.documents.eraseIdx i })

def others (w : Workspace τ) (target : Nat) : List Nat := (List.range w.documents.length).filter fun i => i != target

/-- the document at a place and the trees of others in a given order, the document itself left out -/
def split (w : Workspace τ) (target : Nat) (order : List Nat) : Except WorkspaceError (Document τ × List Tree) :=
  match (target :: order).find? fun i => w.documents.length ≤ i, w.documents[target]? with
  | some i, _ => .error (.noSuchDocument i)
  | none, none => .error (.noSuchDocument target)
  | none, some d =>
    .ok (d, (order.filter fun i => i != target).filterMap fun i => (w.documents[i]?).map (·.tree))

/-- works on the document at a place with the trees of others -/
def within {α : Type} (w : Workspace τ) (target : Nat) (order : List Nat)
    (k : Document τ → List Tree → Outcome (Document τ) α) : Except WorkspaceError α × Workspace τ :=
  match w.split target order with
  | .error e => (.error e, w)
  | .ok (d, trees) =>
    let (r, d) := k d trees
    (r.mapError .edit, { w with documents := w.documents.set target d })

variable [Transport τ]

/-- brings a type into a document from others in a given order -/
def adoptFrom (w : Workspace τ) (target : Nat) (name : String) (order : List Nat) :
    Except WorkspaceError Resolution × Workspace τ :=
  w.within target order fun d trees => d.adopt name trees

/-- brings a type into a document from all others -/
def adopt (w : Workspace τ) (target : Nat) (name : String) : Except WorkspaceError Resolution × Workspace τ :=
  w.adoptFrom target name (w.others target)

/-- makes a node of a document refer to a type, which is brought from all others if need be -/
def referTo (w : Workspace τ) (target : Nat) (id : NodeId) (name : String) :
    Except WorkspaceError Resolution × Workspace τ :=
  w.within target (w.others target) fun d trees => d.referTo id name trees

omit [Transport τ]

/-- the disagreement about a type name, as seen from a document -/
def disagreement? (w : Workspace τ) (target : Nat) (name : String) : Except WorkspaceError (Option Disagreement) :=
  match w.documents[target]? with
  | none => .error (.noSuchDocument target)
  | some d => .ok (d.tree.disagreement? ((w.others target).filterMap fun i => (w.documents[i]?).map (·.tree)) name)

end Workspace

end ByteAtlas
