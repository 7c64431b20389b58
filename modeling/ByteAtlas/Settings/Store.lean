/-
Stores of settings: blocks of bytes under keys, kept in memory or in the files of a directory.
-/
import ByteAtlas.Files
import ByteAtlas.Text.Quoted

namespace ByteAtlas

/-- why settings cannot be loaded or saved -/
inductive SettingsError where
  | notFound
  | file
  | malformed
  | other (reason : String)
  deriving DecidableEq, Repr

/-- what a user is told; nothing fixed for files and for malformed text -/
def SettingsError.message? : SettingsError → Option String
  | notFound => some "not found"
  | file => none
  | malformed => none
  | other reason => some ("other: " ++ reason)

/-- something that keeps blocks of bytes under keys -/
class SettingsStore (σ : Type) where
  load : σ → String → Except SettingsError Bytes
  save : σ → String → Bytes → Except SettingsError σ

/-! ## In memory -/

/-- settings in memory; a key that is refused can neither be loaded nor saved -/
structure MemoryStore where
  blocks : List (String × Bytes)
  /-- why a key is refused, if it is -/
  refusal : String → Option String

namespace MemoryStore

def load (m : MemoryStore) (key : String) : Except SettingsError Bytes :=
  match m.refusal key, m.blocks.lookup key with
  | some reason, _ => .error (.other reason)
  | none, some bs => .ok bs
  | none, none => .error .notFound

def save (m : MemoryStore) (key : String) (bs : Bytes) : Except SettingsError MemoryStore :=
  match m.refusal key with
  | some reason => .error (.other reason)
  | none => .ok { m with blocks := (key, bs) :: m.blocks.filter fun b => b.1 != key }

instance : SettingsStore MemoryStore := ⟨load, save⟩

end MemoryStore

/-! ## In a directory -/

/-- settings in the files of a directory, one for each key -/
structure DirectoryStore where
  files : Files
  base : String
  deriving DecidableEq, Repr

namespace DirectoryStore

/-- the store in a directory, which is made if it is not there -/
def at? (files : Files) (base : String) : Except SettingsError DirectoryStore :=
  match files.makeDirectories base with
  | .ok files => .ok ⟨files, base⟩
  | .error _ => .error .file

/-- whether a key can be the name of a file: it is not empty, stays in the directory and is not hidden -/
def isKey (key : String) : Bool :=
  key != "" && !key.toList.contains '/' && !key.toList.contains '\\' && key.toList.head? != some '.'

def fileOf (d : DirectoryStore) (key : String) : Except SettingsError String :=
  if isKey key then .ok (d.base ++ (if d.base = "" || Path.endsInSlash d.base then "" else "/") ++ key ++ ".json")
  else .error (.other ("invalid config key " ++ Text.quote key))

def load (d : DirectoryStore) (key : String) : Except SettingsError Bytes :=
  match d.fileOf key with
  | .error e => .error e
  | .ok path =>
    match d.files.read path with
    | .ok bs => .ok bs
    | .error .notFound => .error .notFound
    | .error .refused => .error .file

/-- the store with a block under a key; the directory is made again if it is gone -/
def save (d : DirectoryStore) (key : String) (bs : Bytes) : Except SettingsError DirectoryStore :=
  match d.fileOf key with
  | .error e => .error e
  | .ok path =>
    match (d.files.makeDirectories d.base).bind fun fs => fs.write path bs with
    | .ok files => .ok { d with files }
    | .error _ => .error .file

instance : SettingsStore DirectoryStore := ⟨load, save⟩

end DirectoryStore

end ByteAtlas
